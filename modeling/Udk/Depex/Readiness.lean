import Mathlib.Data.Vector.Basic
import Udk.Depex.Evaluator
import Udk.Ppi.Service

/-! # The dependency evaluator of the PEI core

A `PUSH` leaves the address of its GUID on the stack. The PPI is looked up when the entry is needed, and an entry
that decides nothing is never looked up.
-/

namespace Udk.Depex

open Bytes
open Ppi (PpiData peiLocatePpi)

def maxGrammarSize : Nat := 64

/-- `EVAL_STACK_ENTRY`. A null `Operator` is none. -/
structure EvalStackEntry where
  result : Bool
  operator : Option Nat

/-- `EvalStack` and the index that `StackPtr` points to. -/
structure EvalStack where
  entries : Vector EvalStackEntry maxGrammarSize
  ptr : Nat

/-- An access outside the array is a fault. -/
def EvalStack.update (s : EvalStack) (i : Nat) (f : EvalStackEntry → EvalStackEntry) : Option EvalStack :=
  if h : i < maxGrammarSize then some { s with entries := s.entries.set i (f (s.entries[i])) h } else none

/-- Whether `PeiLocatePpi` finds the GUID. -/
def ppiLocated (p : PpiData) (guid : Guid) : Bool := (peiLocatePpi p (fromLE guid) 0).isSome

def isPpiInstalled (p : PpiData) (m : Memory) (stack : EvalStackEntry) : Bool :=
  match stack.operator with
  | none => stack.result
  | some operator => ppiLocated p (read m operator sizeofGuid)

/-! ## `PeimDispatchReadiness` -/

/-- An operator ends the evaluation or leads to the next one. -/
inductive Turn
  | done (result : Bool)
  | go (iterator : Nat) (s : EvalStack)

def readinessPush (f : EvalStackEntry → EvalStackEntry) (iterator : Nat) (s : EvalStack) : Option Turn :=
  if maxGrammarSize - 1 < s.ptr then some (.done false)
  else (s.update s.ptr f).map fun s => .go iterator { s with ptr := s.ptr + 1 }

/-- `AND` and `OR`: the popped entry decides if it has the value `decisive`. -/
def readinessBinary (p : PpiData) (m : Memory) (decisive : Bool) (iterator : Nat) (s : EvalStack) : Option Turn :=
  if s.ptr < 2 then some (.done false)
  else do
    let popped ← s.entries[s.ptr - 1]?
    let s := { s with ptr := s.ptr - 1 }
    if isPpiInstalled p m popped = decisive then
      let s ← s.update (s.ptr - 1) fun _ => ⟨decisive, none⟩
      return .go iterator s
    else return .go iterator s

def readinessNot (p : PpiData) (m : Memory) (iterator : Nat) (s : EvalStack) : Option Turn :=
  if s.ptr < 1 then some (.done false)
  else (s.update (s.ptr - 1) fun e => ⟨!isPpiInstalled p m e, none⟩).map (.go iterator)

/-- `END`. With an empty stack `StackPtr` goes in front of the array and is not used. -/
def readinessEnd (p : PpiData) (m : Memory) (s : EvalStack) : Option Turn :=
  if s.ptr ≠ 1 then some (.done false) else s.entries[0]?.map fun e => .done (isPpiInstalled p m e)

def readinessOperator (p : PpiData) (m : Memory) (iterator : Nat) (s : EvalStack) : Option Turn :=
  let opcode := m iterator
  if opcode = efiDepPush then
    readinessPush (fun e => { e with operator := some (iterator + 1) }) (iterator + 1 + sizeofGuid) s
  else if opcode = efiDepAnd ∨ opcode = efiDepOr then
    readinessBinary p m (decide (opcode ≠ efiDepAnd)) (iterator + 1) s
  else if opcode = efiDepEnd then readinessEnd p m s
  else if opcode = efiDepNot then readinessNot p m (iterator + 1) s
  else if opcode = efiDepTrue ∨ opcode = efiDepFalse then
    readinessPush (fun _ => ⟨decide (opcode = efiDepTrue), none⟩) (iterator + 1) s
  else some (.done false)

/-- The loop, with fuel for so many operators. -/
def readinessLoop (p : PpiData) (m : Memory) : Nat → Nat → EvalStack → Option Bool
  | 0, _, _ => none
  | fuel + 1, iterator, s =>
    match readinessOperator p m iterator s with
    | none => none
    | some (.done result) => some result
    | some (.go iterator s) => readinessLoop p m fuel iterator s

/-- `EvalStack` is not initialized. -/
def peimDispatchReadiness (p : PpiData) (m : Memory) (evalStack : Vector EvalStackEntry maxGrammarSize)
    (dependencyExpression fuel : Nat) : Option Bool :=
  readinessLoop p m fuel dependencyExpression ⟨evalStack, 0⟩

/-! ## What the expression needs -/

/-- How many stack entries the evaluation of an expression takes. -/
def Expr.need : Expr → Nat
  | push _ | .true | .false => 1
  | and a b | or a b => max a.need (b.need + 1)
  | not a => a.need

def scanNext (m : Memory) (iterator : Nat) : Nat :=
  if m iterator = efiDepPush then iterator + 1 + sizeofGuid else iterator + 1

/-- Going from opcode to opcode one comes to an `END` at `n`. -/
inductive ScansTo (m : Memory) (n : Nat) : Nat → Prop
  | here (h : m n = efiDepEnd) : ScansTo m n n
  | later {i} (h : m i ≠ efiDepEnd) (t : ScansTo m n (scanNext m i)) : ScansTo m n i

theorem lt_scanNext (m : Memory) (i : Nat) : i < scanNext m i := by
  unfold scanNext; split <;> omega

theorem ScansTo.le {m : Memory} {n i : Nat} (h : ScansTo m n i) : i ≤ n := by
  induction h with
  | here => exact Nat.le_refl _
  | @later i _ _ ih => exact Nat.le_trans (Nat.le_of_lt (lt_scanNext m i)) ih

/-! ## The values on the stack -/

/-- The entries below `StackPtr` stand for these values, the last one first. -/
def Values (p : PpiData) (m : Memory) (entries : Vector EvalStackEntry maxGrammarSize) : List Bool → Prop
  | [] => True
  | v :: vs => (∃ e, entries[vs.length]? = some e ∧ isPpiInstalled p m e = v) ∧ Values p m entries vs

structure Holds (p : PpiData) (m : Memory) (s : EvalStack) (vs : List Bool) : Prop where
  ptr : s.ptr = vs.length
  values : Values p m s.entries vs

section
variable {p : PpiData} {m : Memory} {s : EvalStack} {i : Nat} {v w : Bool} {vs : List Bool}

theorem Values.set {entries : Vector EvalStackEntry maxGrammarSize} (h : Values p m entries vs) {k : Nat}
    (e : EvalStackEntry) (hk : k < maxGrammarSize) (hle : vs.length ≤ k) : Values p m (entries.set k e hk) vs := by
  induction vs with
  | nil => trivial
  | cons v vs ih =>
    rw [List.length_cons] at hle
    obtain ⟨⟨x, hx, hv⟩, ht⟩ := h
    refine ⟨⟨x, ?_, hv⟩, ih ht (by omega)⟩
    rw [Vector.getElem?_set_ne hk (by omega)]
    exact hx

theorem Values.length_le {entries : Vector EvalStackEntry maxGrammarSize} (h : Values p m entries vs) :
    vs.length ≤ maxGrammarSize := by
  cases vs with
  | nil => exact Nat.zero_le _
  | cons v vs =>
    obtain ⟨⟨x, hx, -⟩, -⟩ := h
    obtain ⟨hlt, -⟩ := Vector.getElem?_eq_some_iff.mp hx
    exact hlt

/-- A new value in the place above the others. -/
theorem Holds.update (h : Values p m s.entries vs) (hlt : vs.length < maxGrammarSize)
    (f : EvalStackEntry → EvalStackEntry) (hf : ∀ e, s.entries[vs.length]? = some e → isPpiInstalled p m (f e) = v) :
    ∃ s', s.update vs.length f = some s' ∧ s'.ptr = s.ptr ∧ Values p m s'.entries (v :: vs) := by
  refine ⟨_, dif_pos hlt, rfl, ⟨_, Vector.getElem?_set_self hlt, hf _ ?_⟩, h.set _ hlt (Nat.le_refl _)⟩
  exact Vector.getElem?_eq_getElem hlt

/-! ## One operator -/

theorem readinessPush_holds (h : Holds p m s vs) (hlt : vs.length < maxGrammarSize)
    {f : EvalStackEntry → EvalStackEntry} (hf : ∀ e, isPpiInstalled p m (f e) = v) (i : Nat) :
    ∃ s', readinessPush f i s = some (.go i s') ∧ Holds p m s' (v :: vs) := by
  obtain ⟨s', hs', hptr, hvalues⟩ := Holds.update h.values hlt f fun e _ => hf e
  refine ⟨{ s' with ptr := s'.ptr + 1 }, ?_, by simp only [hptr, h.ptr, List.length_cons], hvalues⟩
  rw [readinessPush, if_neg (by rw [h.ptr]; omega), h.ptr, hs']
  rfl

theorem readinessPush_full (h : Holds p m s vs) (hle : maxGrammarSize ≤ vs.length)
    (f : EvalStackEntry → EvalStackEntry) (i : Nat) : readinessPush f i s = some (.done false) := by
  have h64 : 0 < maxGrammarSize := by decide
  rw [readinessPush, if_pos (by rw [h.ptr]; omega)]

theorem readinessBinary_holds (h : Holds p m s (v :: w :: vs)) (decisive : Bool) (i : Nat) :
    ∃ s', readinessBinary p m decisive i s = some (.go i s') ∧
      Holds p m s' ((if v = decisive then decisive else w) :: vs) := by
  obtain ⟨popped, hpopped, hv⟩ := h.values.1
  have hptr : s.ptr = vs.length + 2 := h.ptr
  have hlt := Values.length_le h.values
  rw [List.length_cons, List.length_cons] at hlt
  rw [List.length_cons] at hpopped
  rw [readinessBinary, if_neg (by omega), hptr, show vs.length + 2 - 1 = vs.length + 1 from rfl, hpopped]
  simp only [Option.bind_eq_bind, Option.bind_some, hv, Nat.add_sub_cancel]
  split
  · obtain ⟨s', hs', hptr', hvalues⟩ := Holds.update (s := { s with ptr := vs.length + 1 }) (v := decisive)
      h.values.2.2 (by omega) (fun _ => ⟨decisive, none⟩) fun _ _ => rfl
    exact ⟨s', by rw [hs']; rfl, hptr', hvalues⟩
  · exact ⟨_, rfl, rfl, h.values.2⟩

theorem readinessNot_holds (h : Holds p m s (v :: vs)) (i : Nat) :
    ∃ s', readinessNot p m i s = some (.go i s') ∧ Holds p m s' ((!v) :: vs) := by
  obtain ⟨top, htop, hv⟩ := h.values.1
  have hptr : s.ptr = vs.length + 1 := h.ptr
  have hlt := Values.length_le h.values
  obtain ⟨s', hs', hptr', hvalues⟩ := Holds.update (s := s) (v := !v) h.values.2 hlt
    (fun e => ⟨!isPpiInstalled p m e, none⟩) fun e he => by
      rw [htop] at he
      cases he
      rw [← hv]
      rfl
  refine ⟨s', ?_, by rw [hptr', hptr, List.length_cons], hvalues⟩
  rw [readinessNot, if_neg (by omega), hptr, Nat.add_sub_cancel, hs']
  rfl

theorem readinessEnd_holds (h : Holds p m s [v]) : readinessEnd p m s = some (.done v) := by
  obtain ⟨top, htop, hv⟩ := h.values.1
  have hptr : s.ptr = 1 := h.ptr
  rw [readinessEnd, if_neg (by omega), show s.entries[0]? = some top from htop, ← hv]
  rfl

/-! ## Which opcode does what -/

theorem readinessOperator_push (s : EvalStack) (h : m i = efiDepPush) :
    readinessOperator p m i s =
      readinessPush (fun e => { e with operator := some (i + 1) }) (i + 1 + sizeofGuid) s := by
  simp [readinessOperator, h]

theorem readinessOperator_and (s : EvalStack) (h : m i = efiDepAnd) :
    readinessOperator p m i s = readinessBinary p m false (i + 1) s := by
  simp [readinessOperator, h, efiDepPush, efiDepAnd]

theorem readinessOperator_or (s : EvalStack) (h : m i = efiDepOr) :
    readinessOperator p m i s = readinessBinary p m true (i + 1) s := by
  simp [readinessOperator, h, efiDepPush, efiDepAnd, efiDepOr]

theorem readinessOperator_end (s : EvalStack) (h : m i = efiDepEnd) :
    readinessOperator p m i s = readinessEnd p m s := by
  simp [readinessOperator, h, efiDepPush, efiDepAnd, efiDepOr, efiDepEnd]

theorem readinessOperator_not (s : EvalStack) (h : m i = efiDepNot) :
    readinessOperator p m i s = readinessNot p m (i + 1) s := by
  simp [readinessOperator, h, efiDepPush, efiDepAnd, efiDepOr, efiDepEnd, efiDepNot]

theorem readinessOperator_true (s : EvalStack) (h : m i = efiDepTrue) :
    readinessOperator p m i s = readinessPush (fun _ => ⟨true, none⟩) (i + 1) s := by
  simp [readinessOperator, h, efiDepPush, efiDepAnd, efiDepOr, efiDepEnd, efiDepNot, efiDepTrue]

theorem readinessOperator_false (s : EvalStack) (h : m i = efiDepFalse) :
    readinessOperator p m i s = readinessPush (fun _ => ⟨false, none⟩) (i + 1) s := by
  simp [readinessOperator, h, efiDepPush, efiDepAnd, efiDepOr, efiDepEnd, efiDepNot, efiDepTrue, efiDepFalse]

theorem readinessOperator_other (s : EvalStack)
    (h : m i ∉ [efiDepPush, efiDepAnd, efiDepOr, efiDepEnd, efiDepNot, efiDepTrue, efiDepFalse]) :
    readinessOperator p m i s = some (.done false) := by
  simp only [List.mem_cons, List.not_mem_nil, or_false, not_or] at h
  obtain ⟨h1, h2, h3, h4, h5, h6, h7⟩ := h
  simp [readinessOperator, h1, h2, h3, h4, h5, h6, h7]

theorem readinessLoop_go {fuel i' : Nat} {s' : EvalStack} (h : readinessOperator p m i s = some (.go i' s')) :
    readinessLoop p m (fuel + 1) i s = readinessLoop p m fuel i' s' := by
  rw [readinessLoop, h]

theorem readinessLoop_done {fuel : Nat} {result : Bool} (h : readinessOperator p m i s = some (.done result)) :
    readinessLoop p m (fuel + 1) i s = some result := by
  rw [readinessLoop, h]

/-! ## An expression is evaluated -/

/-- The code of an expression runs and leaves its value on the stack. -/
def Leaves (p : PpiData) (m : Memory) (i : Nat) (s : EvalStack) (length : Nat) (vs : List Bool) : Prop :=
  ∃ s' n, n ≤ length ∧ Holds p m s' vs ∧
    ∀ fuel, readinessLoop p m (fuel + n) i s = readinessLoop p m fuel (i + length) s'

theorem Leaves.one {s' : EvalStack} {length : Nat} (hpos : 0 < length)
    (h : readinessOperator p m i s = some (.go (i + length) s')) (hs : Holds p m s' vs) :
    Leaves p m i s length vs := ⟨s', 1, hpos, hs, fun _ => readinessLoop_go h⟩

/-- The code of an operand, and then the rest. -/
theorem Leaves.append {length rest : Nat} {ws : List Bool} (h : Leaves p m i s length vs)
    (hrest : ∀ s', Holds p m s' vs → Leaves p m (i + length) s' rest ws) :
    Leaves p m i s (length + rest) ws := by
  obtain ⟨s₁, n₁, hn₁, hs₁, hloop₁⟩ := h
  obtain ⟨s₂, n₂, hn₂, hs₂, hloop₂⟩ := hrest s₁ hs₁
  refine ⟨s₂, n₁ + n₂, Nat.add_le_add hn₁ hn₂, hs₂, fun fuel => ?_⟩
  rw [show fuel + (n₁ + n₂) = fuel + n₂ + n₁ by omega, hloop₁, hloop₂, Nat.add_assoc]

theorem Leaves.binary {decisive : Bool} (hs : Holds p m s (v :: w :: vs))
    (h : readinessOperator p m i s = readinessBinary p m decisive (i + 1) s) :
    Leaves p m i s 1 ((if v = decisive then decisive else w) :: vs) := by
  obtain ⟨s', hgo, hs'⟩ := readinessBinary_holds hs decisive (i + 1)
  exact .one Nat.one_pos (h.trans hgo) hs'

theorem decisive_and (v w : Bool) : (if v = false then false else w) = (w && v) := by cases v <;> simp

theorem decisive_or (v w : Bool) : (if v = true then true else w) = (w || v) := by cases v <;> simp

/-- The postfix form of an expression leaves the value of the expression, if there is room for its operands. -/
theorem Expr.leaves {e : Expr} (hwf : e.WellFormed) (hat : At m i e.encode)
    (hneed : e.need + vs.length ≤ maxGrammarSize) (hs : Holds p m s vs) :
    Leaves p m i s e.encode.length (e.eval (ppiLocated p) :: vs) := by
  induction e generalizing i s vs with
  | push guid =>
    simp only [need] at hneed
    rw [encode, at_cons] at hat
    have hguid : read m (i + 1) sizeofGuid = guid := by rw [← (show guid.length = sizeofGuid from hwf)]; exact hat.2
    obtain ⟨s', hgo, hs'⟩ := readinessPush_holds hs (show vs.length < maxGrammarSize by omega)
      (f := fun e => { e with operator := some (i + 1) }) (fun _ => rfl) (i + 1 + sizeofGuid)
    refine .one (by simp [encode]) ?_ (hguid ▸ hs')
    rw [readinessOperator_push s hat.1, hgo, encode, List.length_cons, show guid.length = sizeofGuid from hwf]
    congr 2
  | and a b iha ihb =>
    simp only [need] at hneed
    rw [encode, at_append, at_append] at hat
    obtain ⟨ha, hb, hop⟩ := hat
    rw [encode, List.length_append, List.length_append]
    refine (iha hwf.1 ha (by omega) hs).append fun s₁ hs₁ => ?_
    refine (ihb hwf.2 hb (by rw [List.length_cons]; omega) hs₁).append fun s₂ hs₂ => ?_
    rw [eval, ← decisive_and]
    exact .binary hs₂ (readinessOperator_and s₂ ((at_cons _ _ _ _).mp hop).1)
  | or a b iha ihb =>
    simp only [need] at hneed
    rw [encode, at_append, at_append] at hat
    obtain ⟨ha, hb, hop⟩ := hat
    rw [encode, List.length_append, List.length_append]
    refine (iha hwf.1 ha (by omega) hs).append fun s₁ hs₁ => ?_
    refine (ihb hwf.2 hb (by rw [List.length_cons]; omega) hs₁).append fun s₂ hs₂ => ?_
    rw [eval, ← decisive_or]
    exact .binary hs₂ (readinessOperator_or s₂ ((at_cons _ _ _ _).mp hop).1)
  | not a ih =>
    simp only [need] at hneed
    rw [encode, at_append] at hat
    rw [encode, List.length_append]
    refine (ih hwf hat.1 hneed hs).append fun s₁ hs₁ => ?_
    obtain ⟨s', hgo, hs'⟩ := readinessNot_holds hs₁ (i + a.encode.length + 1)
    exact .one Nat.one_pos ((readinessOperator_not s₁ ((at_cons _ _ _ _).mp hat.2).1).trans hgo) hs'
  | true =>
    simp only [need] at hneed
    obtain ⟨s', hgo, hs'⟩ := readinessPush_holds hs (show vs.length < maxGrammarSize by omega)
      (f := fun _ => ⟨.true, none⟩) (fun _ => rfl) (i + 1)
    exact .one Nat.one_pos ((readinessOperator_true s ((at_cons _ _ _ _).mp hat).1).trans hgo) hs'
  | false =>
    simp only [need] at hneed
    obtain ⟨s', hgo, hs'⟩ := readinessPush_holds hs (show vs.length < maxGrammarSize by omega)
      (f := fun _ => ⟨.false, none⟩) (fun _ => rfl) (i + 1)
    exact .one Nat.one_pos ((readinessOperator_false s ((at_cons _ _ _ _).mp hat).1).trans hgo) hs'

/-! ## What has been read is a stack of expressions -/

/-- The postfix forms of the expressions on the stack, the last one first. -/
def encodeStack : List Expr → List UInt8
  | [] => []
  | e :: es => encodeStack es ++ e.encode

/-- There was room for the operands of every one of them. -/
def FitsStack : List Expr → Prop
  | [] => True
  | e :: es => e.need + es.length ≤ maxGrammarSize ∧ FitsStack es

/-- What has been read from `a` on are these expressions, and their values are on the stack. -/
structure Parsed (p : PpiData) (m : Memory) (a i : Nat) (s : EvalStack) (es : List Expr) : Prop where
  le : a ≤ i
  bytes : read m a (i - a) = encodeStack es
  wellFormed : ∀ e ∈ es, e.WellFormed
  fits : FitsStack es
  holds : Holds p m s (es.map (Expr.eval (ppiLocated p)))

variable {a : Nat} {es : List Expr}

theorem read_extend {m : Memory} {a i : Nat} (h : a ≤ i) (k : Nat) :
    read m a (i + k - a) = read m a (i - a) ++ read m i k := by
  rw [show i + k - a = i - a + k by omega, read_add, show a + (i - a) = i by omega]

theorem read_one (m : Memory) (i : Nat) : read m i 1 = [m i] := rfl

/-- An opcode of one byte. -/
theorem Parsed.one {s' : EvalStack} {e : Expr} {rest : List Expr} (h : Parsed p m a i s es) (hpush : m i ≠ efiDepPush)
    (hbytes : encodeStack es ++ [m i] = encodeStack rest ++ e.encode) (hwf : e.WellFormed)
    (hrest : ∀ e ∈ rest, e.WellFormed) (hneed : e.need + rest.length ≤ maxGrammarSize) (hfits : FitsStack rest)
    (hs : Holds p m s' (e.eval (ppiLocated p) :: rest.map (Expr.eval (ppiLocated p)))) :
    Parsed p m a (scanNext m i) s' (e :: rest) where
  le := Nat.le_trans h.le (Nat.le_of_lt (lt_scanNext m i))
  bytes := by rw [scanNext, if_neg hpush, read_extend h.le, h.bytes, read_one, hbytes]; rfl
  wellFormed := List.forall_mem_cons.mpr ⟨hwf, hrest⟩
  fits := ⟨hneed, hfits⟩
  holds := hs

/-- An operator refuses what has been read, or another opcode has been read. -/
def Proceeds (p : PpiData) (m : Memory) (a i : Nat) (s : EvalStack) : Prop :=
  readinessOperator p m i s = some (.done false) ∨
    ∃ s' es, readinessOperator p m i s = some (.go (scanNext m i) s') ∧ Parsed p m a (scanNext m i) s' es

theorem Parsed.push (h : Parsed p m a i s es) (hop : m i = efiDepPush) : Proceeds p m a i s := by
  by_cases hfull : maxGrammarSize ≤ es.length
  · left
    rw [readinessOperator_push s hop]
    exact readinessPush_full h.holds (by rwa [List.length_map]) _ _
  · right
    obtain ⟨s', hgo, hs'⟩ := readinessPush_holds h.holds (by rw [List.length_map]; omega)
      (f := fun e => { e with operator := some (i + 1) }) (fun _ => rfl) (i + 1 + sizeofGuid)
    have hscan : scanNext m i = i + 1 + sizeofGuid := if_pos hop
    refine ⟨s', .push (read m (i + 1) sizeofGuid) :: es, ?_, ?_⟩
    · rw [readinessOperator_push s hop, hgo, hscan]
    · refine ⟨Nat.le_trans h.le (Nat.le_of_lt (lt_scanNext m i)), ?_, ?_, ⟨?_, h.fits⟩, hs'⟩
      · rw [hscan, Nat.add_assoc, read_extend h.le, h.bytes, read_add, read_one, hop]
        rfl
      · exact List.forall_mem_cons.mpr ⟨read_length _ _ _, h.wellFormed⟩
      · rw [Expr.need]
        omega

theorem Parsed.constant (h : Parsed p m a i s es) {e : Expr} (hpush : m i ≠ efiDepPush)
    (hop : readinessOperator p m i s = readinessPush (fun _ => ⟨e.eval (ppiLocated p), none⟩) (i + 1) s)
    (hcode : e.encode = [m i]) (hwf : e.WellFormed) (hneed : e.need = 1) : Proceeds p m a i s := by
  by_cases hfull : maxGrammarSize ≤ es.length
  · left
    rw [hop]
    exact readinessPush_full h.holds (by rwa [List.length_map]) _ _
  · right
    obtain ⟨s', hgo, hs'⟩ := readinessPush_holds h.holds (by rw [List.length_map]; omega)
      (f := fun _ => ⟨e.eval (ppiLocated p), none⟩) (fun _ => rfl) (i + 1)
    refine ⟨s', e :: es, ?_, h.one hpush (by rw [hcode]) hwf h.wellFormed (by omega) h.fits hs'⟩
    rw [hop, hgo, scanNext, if_neg hpush]

theorem Parsed.binary (h : Parsed p m a i s es) {decisive : Bool} {e : Expr → Expr → Expr} (hpush : m i ≠ efiDepPush)
    (hop : readinessOperator p m i s = readinessBinary p m decisive (i + 1) s)
    (hcode : ∀ x y, (e x y).encode = x.encode ++ (y.encode ++ [m i]))
    (hwf : ∀ x y, x.WellFormed → y.WellFormed → (e x y).WellFormed)
    (hneed : ∀ x y, (e x y).need = max x.need (y.need + 1))
    (heval : ∀ x y, (e x y).eval (ppiLocated p) =
      if y.eval (ppiLocated p) = decisive then decisive else x.eval (ppiLocated p)) :
    Proceeds p m a i s := by
  match es, h with
  | [], h | [_], h =>
    left
    rw [hop, readinessBinary, if_pos (by rw [h.holds.ptr]; simp)]
  | y :: x :: rest, h =>
    right
    obtain ⟨s', hgo, hs'⟩ := readinessBinary_holds h.holds decisive (i + 1)
    have hf1 : y.need + (rest.length + 1) ≤ maxGrammarSize := h.fits.1
    have hf2 := h.fits.2.1
    obtain ⟨hwy, hwrest⟩ := List.forall_mem_cons.mp h.wellFormed
    obtain ⟨hwx, hwrest⟩ := List.forall_mem_cons.mp hwrest
    refine ⟨s', e x y :: rest, ?_, h.one hpush ?_ (hwf x y hwx hwy) hwrest ?_ h.fits.2.2 ?_⟩
    · rw [hop, hgo, scanNext, if_neg hpush]
    · simp only [encodeStack, hcode, List.append_assoc]
    · rw [hneed]
      omega
    · rw [heval]
      exact hs'

theorem Parsed.not (h : Parsed p m a i s es) (hop : m i = efiDepNot) : Proceeds p m a i s := by
  have hpush : m i ≠ efiDepPush := by rw [hop]; decide
  match es, h with
  | [], h =>
    left
    rw [readinessOperator_not s hop, readinessNot, if_pos (by rw [h.holds.ptr]; simp)]
  | x :: rest, h =>
    right
    obtain ⟨s', hgo, hs'⟩ := readinessNot_holds h.holds (i + 1)
    obtain ⟨hwx, hwrest⟩ := List.forall_mem_cons.mp h.wellFormed
    refine ⟨s', .not x :: rest, ?_, h.one hpush ?_ hwx hwrest h.fits.1 h.fits.2 hs'⟩
    · rw [readinessOperator_not s hop, hgo, scanNext, if_neg hpush]
    · simp only [encodeStack, Expr.encode, List.append_assoc, hop]

theorem Parsed.proceeds (h : Parsed p m a i s es) (hend : m i ≠ efiDepEnd) : Proceeds p m a i s := by
  by_cases hpush : m i = efiDepPush
  · exact h.push hpush
  by_cases hand : m i = efiDepAnd
  · exact h.binary hpush (readinessOperator_and s hand) (e := .and) (fun _ _ => by rw [Expr.encode, hand])
      (fun _ _ => And.intro) (fun _ _ => rfl) fun _ _ => by rw [decisive_and]; rfl
  by_cases hor : m i = efiDepOr
  · exact h.binary hpush (readinessOperator_or s hor) (e := .or) (fun _ _ => by rw [Expr.encode, hor])
      (fun _ _ => And.intro) (fun _ _ => rfl) fun _ _ => by rw [decisive_or]; rfl
  by_cases hnot : m i = efiDepNot
  · exact h.not hnot
  by_cases htrue : m i = efiDepTrue
  · exact h.constant (e := .true) hpush (readinessOperator_true s htrue) (by rw [Expr.encode, htrue]) trivial rfl
  by_cases hfalse : m i = efiDepFalse
  · exact h.constant (e := .false) hpush (readinessOperator_false s hfalse) (by rw [Expr.encode, hfalse]) trivial rfl
  · exact .inl (readinessOperator_other s (by simp [hpush, hand, hor, hend, hnot, htrue, hfalse]))

/-- What is between `a` and `n` is the postfix form of a true expression that fits on the stack. -/
def TrueExpression (p : PpiData) (m : Memory) (a n : Nat) : Prop :=
  ∃ e : Expr, e.WellFormed ∧ read m a (n - a) = e.encode ∧ e.need ≤ maxGrammarSize ∧
    e.eval (ppiLocated p) = true

theorem Parsed.finish {n : Nat} (h : Parsed p m a n s es) (hend : m n = efiDepEnd) :
    ∃ r, readinessOperator p m n s = some (.done r) ∧ (r = true → TrueExpression p m a n) := by
  rw [readinessOperator_end s hend]
  match es, h with
  | [], h | _ :: _ :: _, h =>
    refine ⟨false, ?_, Bool.false_ne_true.elim⟩
    rw [readinessEnd, if_pos (by rw [h.holds.ptr]; simp)]
  | [e], h =>
    refine ⟨_, readinessEnd_holds h.holds, fun he => ⟨e, h.wellFormed e (List.mem_singleton_self e), ?_, ?_, he⟩⟩
    · simpa [encodeStack] using h.bytes
    · exact h.fits.1

/-- The loop comes to a result, and a true one is that of a true expression. -/
theorem Parsed.result {n fuel : Nat} (hscan : ScansTo m n i) (h : Parsed p m a i s es) (hfuel : n - i < fuel) :
    ∃ r, readinessLoop p m fuel i s = some r ∧ (r = true → TrueExpression p m a n) := by
  induction hscan generalizing s es fuel with
  | here hend =>
    obtain ⟨fuel, rfl⟩ : ∃ k, fuel = k + 1 := ⟨fuel - 1, by omega⟩
    obtain ⟨r, hr, htrue⟩ := h.finish hend
    exact ⟨r, readinessLoop_done hr, htrue⟩
  | @later i hend t ih =>
    obtain ⟨fuel, rfl⟩ : ∃ k, fuel = k + 1 := ⟨fuel - 1, by omega⟩
    obtain hdone | ⟨s', es', hgo, h'⟩ := h.proceeds hend
    · exact ⟨false, readinessLoop_done hdone, Bool.false_ne_true.elim⟩
    · have hlt := lt_scanNext m i
      have hle := t.le
      rw [readinessLoop_go hgo]
      exact ih h' (by omega)

theorem ScansTo.end_eq {n : Nat} (h : ScansTo m n i) : m n = efiDepEnd := by
  induction h with
  | here h => exact h
  | later _ _ ih => exact ih

/-- The dependency expression of a PEIM. It is accepted if and only if it is a true expression. -/
theorem peimDispatchReadiness_iff (p : PpiData) {m : Memory} {a n fuel : Nat} (h : ScansTo m n a)
    (evalStack : Vector EvalStackEntry maxGrammarSize) (hfuel : n - a < fuel) :
    ∃ r, peimDispatchReadiness p m evalStack a fuel = some r ∧
      (r = true ↔ ∃ e : Expr, e.WellFormed ∧ read m a (n - a) = e.encode ∧ e.need ≤ maxGrammarSize ∧
        e.eval (ppiLocated p) = true) := by
  have hempty : Holds p m ⟨evalStack, 0⟩ [] := ⟨rfl, trivial⟩
  have hparsed : Parsed p m a a ⟨evalStack, 0⟩ [] :=
    ⟨Nat.le_refl _, by rw [Nat.sub_self]; rfl, by simp, trivial, hempty⟩
  obtain ⟨r, hr, htrue⟩ := hparsed.result h hfuel
  refine ⟨r, hr, htrue, ?_⟩
  rintro ⟨e, hwf, hbytes, hneed, heval⟩
  have hlen : e.encode.length = n - a := by rw [← hbytes, read_length]
  have hat : At m a e.encode := by rw [At, hlen, hbytes]
  obtain ⟨s', k, hk, hs', hloop⟩ := e.leaves hwf hat (show e.need + ([] : List Bool).length ≤ _ from hneed) hempty
  have hle := h.le
  have h1 := hloop (fuel - k)
  rw [show fuel - k + k = fuel by omega, hlen, show a + (n - a) = n by omega] at h1
  obtain ⟨fuel', hf⟩ : ∃ f, fuel - k = f + 1 := ⟨fuel - k - 1, by omega⟩
  have hend := (readinessOperator_end (p := p) s' h.end_eq).trans (readinessEnd_holds hs')
  rw [hr, hf, readinessLoop_done hend, heval] at h1
  exact Option.some.inj h1

end

/-- One PPI, whose GUID has the bytes 7, 0, 0, and so on. -/
def readyDatabase : PpiData :=
  { Ppi.initializePpiServices 2 with ppiListEnd := 1, ppiListPtrs := fun _ => ⟨0x1000, 0x80000010, 7, 0x2000⟩ }

def readyGuid (n : UInt8) : Guid := n :: List.replicate 15 0

/-- One PPI is there and the other is not. -/
def readyExpr : Expr := .and (.push (readyGuid 7)) (.not (.push (readyGuid 9)))

/-- The expression at address 5, and behind it bytes that are no opcodes. -/
def readyMemory : Memory := fun i => (List.replicate 5 0xff ++ (readyExpr.encode ++ [efiDepEnd])).getD i 0xff

theorem peimDispatchReadiness_sample : ∃ n, peimDispatchReadiness readyDatabase readyMemory
      (.replicate maxGrammarSize ⟨true, some 5⟩) 5 40 = some true ∧ ScansTo readyMemory n 5 := by
  have hscan : ScansTo readyMemory 41 5 :=
    .later (by decide) (.later (by decide) (.later (by decide) (.later (by decide) (.here (by decide)))))
  obtain ⟨r, hr, htrue⟩ := peimDispatchReadiness_iff readyDatabase hscan
    (.replicate maxGrammarSize ⟨true, some 5⟩) (show 41 - 5 < 40 by decide)
  refine ⟨41, ?_, hscan⟩
  rw [hr, htrue.mpr ⟨readyExpr, ⟨rfl, rfl⟩, by decide +kernel, by decide, by decide +kernel⟩]

end Udk.Depex
