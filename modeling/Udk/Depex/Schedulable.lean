import Udk.Depex.Evaluator

/-! # Dependency expressions and their truth value -/

namespace Udk.Depex

open Bytes

/-! ## Patched expressions -/

/-- The postfix form in which the evaluator replaced some of the `PUSH` opcodes whose protocols are there. -/
inductive Codes (located : Guid → Bool) : Expr → List UInt8 → Prop
  | push {guid} (h : guid.length = sizeofGuid) : Codes located (.push guid) (efiDepPush :: guid)
  | replaced {guid} (h : guid.length = sizeofGuid) (hl : located guid = true) :
      Codes located (.push guid) (efiDepReplaceTrue :: guid)
  | and {a b x y} (ha : Codes located a x) (hb : Codes located b y) :
      Codes located (.and a b) (x ++ (y ++ [efiDepAnd]))
  | or {a b x y} (ha : Codes located a x) (hb : Codes located b y) :
      Codes located (.or a b) (x ++ (y ++ [efiDepOr]))
  | not {a x} (ha : Codes located a x) : Codes located (.not a) (x ++ [efiDepNot])
  | pushTrue : Codes located .true [efiDepTrue]
  | pushFalse : Codes located .false [efiDepFalse]

theorem codes_encode {located : Guid → Bool} {e : Expr} (h : e.WellFormed) : Codes located e e.encode := by
  induction e with
  | push guid => exact .push h
  | and a b iha ihb => exact .and (iha h.1) (ihb h.2)
  | or a b iha ihb => exact .or (iha h.1) (ihb h.2)
  | not a ih => exact .not (ih h)
  | true => exact .pushTrue
  | false => exact .pushFalse

theorem Codes.mono {located located' : Guid → Bool} (hg : ∀ guid, located guid = true → located' guid = true)
    {e : Expr} {x : List UInt8} (h : Codes located e x) : Codes located' e x := by
  induction h with
  | push h => exact .push h
  | replaced h hl => exact .replaced h (hg _ hl)
  | and _ _ iha ihb => exact .and iha ihb
  | or _ _ iha ihb => exact .or iha ihb
  | not _ ih => exact .not ih
  | pushTrue => exact .pushTrue
  | pushFalse => exact .pushFalse

/-! ## The growing stack -/

theorem Expr.depth_pos (e : Expr) : 0 < e.depth := by
  induction e with
  | and a b iha ihb => exact Nat.lt_of_lt_of_le iha (Nat.le_max_left _ _)
  | or a b iha ihb => exact Nat.lt_of_lt_of_le iha (Nat.le_max_left _ _)
  | not a ih => exact ih
  | push guid => exact Nat.one_pos
  | true => exact Nat.one_pos
  | false => exact Nat.one_pos

/-- `AllocatePool` succeeds each time that a stack of `size` values has to grow to take `depth` of them. -/
def Environment.Allocates (env : Environment) (size depth : Nat) : Prop :=
  ∀ k, size + k * depexStackSizeIncrement < depth →
    env.allocates (depexStackSizeIncrement + (size + k * depexStackSizeIncrement)) = true

/-- The stack of one size grew to the other. -/
def Grown (size size' : Nat) : Prop := ∃ k, size' = size + k * depexStackSizeIncrement

theorem Grown.refl (size : Nat) : Grown size size := ⟨0, by omega⟩

theorem Grown.trans {a b c : Nat} (h : Grown a b) (h' : Grown b c) : Grown a c := by
  obtain ⟨k, rfl⟩ := h
  obtain ⟨k', rfl⟩ := h'
  exact ⟨k + k', by rw [Nat.add_mul, Nat.add_assoc]⟩

theorem Grown.le {a b : Nat} (h : Grown a b) : a ≤ b := by
  obtain ⟨k, rfl⟩ := h
  exact Nat.le_add_right _ _

theorem Environment.Allocates.mono {env : Environment} {size size' depth depth' : Nat} (h : env.Allocates size depth)
    (hg : Grown size size') (hle : depth' ≤ depth) : env.Allocates size' depth' := by
  obtain ⟨k, rfl⟩ := hg
  intro k' hk
  have heq : size + k * depexStackSizeIncrement + k' * depexStackSizeIncrement =
      size + (k + k') * depexStackSizeIncrement := by rw [Nat.add_mul, Nat.add_assoc]
  rw [heq] at hk ⊢
  exact h _ (Nat.lt_of_lt_of_le hk hle)

/-- A stack that is large enough asks for nothing. -/
theorem allocates_of_le {env : Environment} {size depth : Nat} (h : depth ≤ size) : env.Allocates size depth :=
  fun _ hk => absurd hk (by omega)

/-- There is room on the stack for so many more values, or memory for it. -/
structure Environment.TakesMore (env : Environment) (stack : Stack) (n : Nat) : Prop where
  fits : stack.values.length ≤ stack.size
  allocates : env.Allocates stack.size (stack.values.length + n)

/-! ## One instruction -/

section
variable {env : Environment} {iterator size : Nat} {s : State} {value : Bool} {values : List Bool}

/-- The stack after a push, which had this size before. -/
structure Pushed (size : Nat) (value : Bool) (below : List Bool) (stack' : Stack) : Prop where
  values : stack'.values = value :: below
  grown : Grown size stack'.size
  room : below.length + 1 ≤ stack'.size

/-- The state after a push. -/
theorem pushed_eq (value : Bool) (iterator : Nat) (s : State) (ha : env.TakesMore s.stack 1) :
    ∃ stack, Pushed s.stack.size value s.stack.values stack ∧
      pushed env value iterator s = .go iterator { s with stack } := by
  have hfits := ha.fits
  by_cases hfull : s.stack.values.length = s.stack.size
  · have hmem : env.allocates (depexStackSizeIncrement + s.stack.size) = true := by
      have := ha.allocates 0 (by omega)
      rwa [Nat.zero_mul, Nat.add_zero] at this
    refine ⟨⟨value :: s.stack.values, depexStackSizeIncrement + s.stack.size⟩, ⟨rfl, ⟨1, by simp only; omega⟩, ?_⟩, ?_⟩
    · simp only [depexStackSizeIncrement]
      omega
    · simp [pushed, pushBool, growDepexStack, hfull, hmem]
  · refine ⟨⟨value :: s.stack.values, s.stack.size⟩, ⟨rfl, .refl _, by simp only; omega⟩, ?_⟩
    simp [pushed, pushBool, hfull]

/-- What was popped leaves room for the result. -/
theorem unary_eq (f : Bool → Bool) (iterator : Nat) (s : State) (hfits : s.stack.values.length ≤ s.stack.size)
    (hs : s.stack.values = value :: values) :
    ∃ stack, Pushed s.stack.size (f value) values stack ∧ unary env f iterator s = .go iterator { s with stack } := by
  rw [hs, List.length_cons] at hfits
  simp only [unary, popBool, hs]
  exact @pushed_eq env (f value) iterator { s with stack := { s.stack with values } }
    ⟨Nat.le_of_succ_le hfits, allocates_of_le hfits⟩

theorem binary_eq (f : Bool → Bool → Bool) (iterator : Nat) (s : State) {value2 : Bool}
    (hfits : s.stack.values.length ≤ s.stack.size) (hs : s.stack.values = value :: value2 :: values) :
    ∃ stack, Pushed s.stack.size (f value value2) values stack ∧
      binary env f iterator s = .go iterator { s with stack } := by
  rw [hs, List.length_cons, List.length_cons] at hfits
  simp only [binary, popBool, hs]
  exact @pushed_eq env (f value value2) iterator { s with stack := { s.stack with values } }
    ⟨by simp only; omega, allocates_of_le (by simp only; omega)⟩

/-! ## Which opcode does what -/

theorem instruction_push (h : s.depex iterator = efiDepPush) :
    instruction env iterator s = pushGuid env iterator { s with reads := iterator :: s.reads } := by
  simp [instruction, h, efiDepBefore, efiDepAfter, efiDepSor, efiDepPush]

theorem instruction_and (h : s.depex iterator = efiDepAnd) :
    instruction env iterator s = binary env (· && ·) (iterator + 1) { s with reads := iterator :: s.reads } := by
  simp [instruction, h, efiDepBefore, efiDepAfter, efiDepSor, efiDepPush, efiDepAnd]

theorem instruction_or (h : s.depex iterator = efiDepOr) :
    instruction env iterator s = binary env (· || ·) (iterator + 1) { s with reads := iterator :: s.reads } := by
  simp [instruction, h, efiDepBefore, efiDepAfter, efiDepSor, efiDepPush, efiDepAnd, efiDepOr]

theorem instruction_not (h : s.depex iterator = efiDepNot) :
    instruction env iterator s = unary env (!·) (iterator + 1) { s with reads := iterator :: s.reads } := by
  simp [instruction, h, efiDepBefore, efiDepAfter, efiDepSor, efiDepPush, efiDepAnd, efiDepOr, efiDepNot]

theorem instruction_true (h : s.depex iterator = efiDepTrue) :
    instruction env iterator s = pushed env true (iterator + 1) { s with reads := iterator :: s.reads } := by
  simp [instruction, h, efiDepBefore, efiDepAfter, efiDepSor, efiDepPush, efiDepAnd, efiDepOr, efiDepNot, efiDepTrue]

theorem instruction_false (h : s.depex iterator = efiDepFalse) :
    instruction env iterator s = pushed env false (iterator + 1) { s with reads := iterator :: s.reads } := by
  simp [instruction, h, efiDepBefore, efiDepAfter, efiDepSor, efiDepPush, efiDepAnd, efiDepOr, efiDepNot, efiDepTrue,
    efiDepFalse]

theorem instruction_replaceTrue (h : s.depex iterator = efiDepReplaceTrue) :
    instruction env iterator s =
      pushed env true (iterator + 1 + sizeofGuid) { s with reads := iterator :: s.reads } := by
  simp [instruction, h, efiDepBefore, efiDepAfter, efiDepSor, efiDepPush, efiDepAnd, efiDepOr, efiDepNot, efiDepTrue,
    efiDepFalse, efiDepEnd, efiDepReplaceTrue]

theorem instruction_end (env : Environment) (h : s.depex iterator = efiDepEnd) (hs : s.stack.values = value :: values) :
    ∃ s', instruction env iterator s = .done value s' ∧ s'.depex = s.depex ∧ s'.stack.size = s.stack.size := by
  refine ⟨⟨s.depex, ⟨values, s.stack.size⟩, iterator :: s.reads⟩, ?_, rfl, rfl⟩
  simp [instruction, popBool, hs, h, efiDepBefore, efiDepAfter, efiDepSor, efiDepPush, efiDepAnd, efiDepOr, efiDepNot,
    efiDepTrue, efiDepFalse, efiDepEnd]

theorem loop_go {fuel iterator' : Nat} {s' : State} (hlt : iterator < size)
    (hi : instruction env iterator s = .go iterator' s') :
    loop env size (fuel + 1) iterator s = loop env size fuel iterator' s' := by
  rw [loop, if_neg (Nat.not_le.mpr hlt), hi]

/-! ## A whole expression -/

/-- The code of an expression runs: its value is on the stack, and the rest of the buffer is as it was. -/
structure Ran (env : Environment) (size : Nat) (e : Expr) (x : List UInt8) (iterator : Nat) (s : State)
    (x' : List UInt8) (s' : State) (n : Nat) : Prop where
  codes : Codes env.located e x'
  length : x'.length = x.length
  placed : At s'.depex iterator x'
  frame : ∀ i, i < iterator ∨ iterator + x.length ≤ i → s'.depex i = s.depex i
  values : s'.stack.values = e.eval env.located :: s.stack.values
  grown : Grown s.stack.size s'.stack.size
  room : s.stack.values.length + e.depth ≤ s'.stack.size
  steps : n ≤ x.length
  loop : ∀ fuel, loop env size (fuel + n) iterator s = Depex.loop env size fuel (iterator + x.length) s'

theorem Ran.fits {e : Expr} {x x' : List UInt8} {s' : State} {n : Nat} (r : Ran env size e x iterator s x' s' n) :
    s'.stack.values.length ≤ s'.stack.size := by
  have h := r.room
  have hpos := e.depth_pos
  rw [r.values, List.length_cons]
  omega

/-- An instruction behind the code of an expression. -/
theorem at_behind {m m' : Memory} {a : Nat} {x y : List UInt8} (h : At m a (x ++ y))
    (hf : ∀ i, i < a ∨ a + x.length ≤ i → m' i = m i) : At m' (a + x.length) y :=
  (at_congr _ _ _ _ fun i h1 _ => hf i (.inr h1)).mpr ((at_append _ _ _ _).mp h).2

theorem Codes.run_binary {a b e : Expr} {x y : List UInt8} {opcode : UInt8} {f : Bool → Bool → Bool}
    (ha : env.TakesMore s.stack e.depth) (hdepth : e.depth = max a.depth (b.depth + 1))
    (hop : ∀ i s, s.depex i = opcode → instruction env i s = binary env f (i + 1) { s with reads := i :: s.reads })
    (hcodes : ∀ x y, Codes env.located a x → Codes env.located b y → Codes env.located e (x ++ (y ++ [opcode])))
    (heval : e.eval env.located = f (b.eval env.located) (a.eval env.located))
    (iha : ∀ {i} s, env.TakesMore s.stack a.depth → At s.depex i x → i + x.length ≤ size →
      ∃ x' s' n, Ran env size a x i s x' s' n)
    (ihb : ∀ {i} s, env.TakesMore s.stack b.depth → At s.depex i y → i + y.length ≤ size →
      ∃ y' s' n, Ran env size b y i s y' s' n)
    (hat : At s.depex iterator (x ++ (y ++ [opcode]))) (hfit : iterator + (x ++ (y ++ [opcode])).length ≤ size) :
    ∃ x' s' n, Ran env size e (x ++ (y ++ [opcode])) iterator s x' s' n := by
  simp only [List.length_append, List.length_singleton] at hfit
  obtain ⟨x₁, s₁, n₁, r₁⟩ := iha s ⟨ha.fits, ha.allocates.mono (.refl _) (by omega)⟩
    ((at_append _ _ _ _).mp hat).1 (by omega)
  have hat₁ := at_behind hat r₁.frame
  have hlength₁ : s₁.stack.values.length = s.stack.values.length + 1 := by rw [r₁.values, List.length_cons]
  obtain ⟨y₁, s₂, n₂, r₂⟩ := ihb s₁ ⟨r₁.fits, ha.allocates.mono r₁.grown (by omega)⟩
    ((at_append _ _ _ _).mp hat₁).1 (by omega)
  have hat₂ := at_behind hat₁ r₂.frame
  have hopcode : s₂.depex (iterator + x.length + y.length) = opcode := ((at_cons _ _ _ _).mp hat₂).1
  have hvalues : s₂.stack.values = b.eval env.located :: a.eval env.located :: s.stack.values := by
    rw [r₂.values, r₁.values]
  obtain ⟨stack, hstack, hgo⟩ := @binary_eq env _ _ f (iterator + x.length + y.length + 1)
    { s₂ with reads := (iterator + x.length + y.length) :: s₂.reads } _ r₂.fits hvalues
  have hx₁ : At s₂.depex iterator x₁ := by
    refine (at_congr _ _ _ _ fun i _ h2 => r₂.frame i (.inl ?_)).mpr r₁.placed
    rw [r₁.length] at h2
    exact h2
  refine ⟨x₁ ++ (y₁ ++ [opcode]), { s₂ with reads := (iterator + x.length + y.length) :: s₂.reads, stack },
    n₁ + (n₂ + 1), hcodes _ _ r₁.codes r₂.codes, ?_, ?_, ?_, hstack.values.trans ?_,
    (r₁.grown.trans r₂.grown).trans hstack.grown, ?_, ?_, fun fuel => ?_⟩
  · simp [r₁.length, r₂.length]
  · refine (at_append _ _ _ _).mpr ⟨hx₁, (at_append _ _ _ _).mpr ⟨?_, ?_⟩⟩
    · rw [r₁.length]
      exact r₂.placed
    · rw [r₁.length, r₂.length]
      exact hat₂
  · intro i hi
    simp only [List.length_append, List.length_singleton] at hi
    rw [← r₁.frame i (by omega)]
    exact r₂.frame i (by omega)
  · rw [heval]
  · have h1 := r₁.room
    have h2 := r₂.room
    have hg1 := r₂.grown.le
    have hg2 : s₂.stack.size ≤ stack.size := hstack.grown.le
    simp only
    omega
  · have h1 := r₁.steps
    have h2 := r₂.steps
    simp only [List.length_append, List.length_singleton]
    omega
  · have h1 := r₁.loop (fuel + 1 + n₂)
    have h2 := r₂.loop (fuel + 1)
    rw [show fuel + (n₁ + (n₂ + 1)) = fuel + 1 + n₂ + n₁ by omega, h1, h2,
      loop_go (by omega) ((hop _ _ hopcode).trans hgo)]
    simp only [List.length_append, List.length_singleton]
    rw [show iterator + (x.length + (y.length + 1)) = iterator + x.length + y.length + 1 by omega]

theorem write_self {m : Memory} {a : Nat} {bs : List UInt8} (h : At m a bs) : write m a bs = m := by
  funext i
  by_cases hi : i < a ∨ a + bs.length ≤ i
  · exact write_outside _ _ _ _ hi
  · have h1 := at_getElem _ _ _ h (i - a) (by omega)
    have h2 := at_getElem _ _ _ (write_at m a bs) (i - a) (by omega)
    rw [show a + (i - a) = i by omega] at h1 h2
    exact h2.trans h1.symm

theorem Codes.run_push {e : Expr} {guid : Guid} {opcode opcode' : UInt8} (hg : guid.length = sizeofGuid)
    (hcodes : Codes env.located e (opcode' :: guid))
    (hdepth : e.depth = 1) (hgo : ∃ stack, Pushed s.stack.size (e.eval env.located) s.stack.values stack ∧ ∃ reads,
      instruction env iterator s =
        .go (iterator + 1 + sizeofGuid) ⟨write s.depex iterator [opcode'], stack, reads⟩)
    (hat : At s.depex iterator (opcode :: guid)) (hfit : iterator + (opcode :: guid).length ≤ size) :
    ∃ x' s' n, Ran env size e (opcode :: guid) iterator s x' s' n := by
  rw [List.length_cons, hg] at hfit
  obtain ⟨stack, hstack, reads, hi⟩ := hgo
  refine ⟨opcode' :: guid, ⟨write s.depex iterator [opcode'], stack, reads⟩, 1, hcodes, rfl, ?_, ?_, hstack.values,
    hstack.grown, hdepth ▸ hstack.room, ?_, fun fuel => ?_⟩
  · rw [at_cons]
    refine ⟨((at_cons _ _ _ _).mp (write_at s.depex iterator [opcode'])).1, ?_⟩
    exact (at_write _ _ _ _ _ (.inl (Nat.le_refl _))).mpr ((at_cons _ _ _ _).mp hat).2
  · intro i hi'
    refine write_outside _ _ _ _ (hi'.imp_right fun h => ?_)
    rw [List.length_cons, hg] at h
    simp only [List.length_singleton]
    omega
  · simp
  · rw [loop_go (by omega) hi, List.length_cons, hg, Nat.add_assoc, Nat.add_comm 1]

theorem Codes.run_not {a : Expr} {x : List UInt8}
    (iha : ∀ {i} s, env.TakesMore s.stack a.depth → At s.depex i x → i + x.length ≤ size →
      ∃ x' s' n, Ran env size a x i s x' s' n)
    (ha : env.TakesMore s.stack a.depth)
    (hat : At s.depex iterator (x ++ [efiDepNot])) (hfit : iterator + (x ++ [efiDepNot]).length ≤ size) :
    ∃ x' s' n, Ran env size (.not a) (x ++ [efiDepNot]) iterator s x' s' n := by
  simp only [List.length_append, List.length_singleton] at hfit
  obtain ⟨x₁, s₁, n, r⟩ := iha s ha ((at_append _ _ _ _).mp hat).1 (by omega)
  have hat₁ := at_behind hat r.frame
  obtain ⟨stack, hstack, hgo⟩ := @unary_eq env _ _ (!·) (iterator + x.length + 1)
    { s₁ with reads := (iterator + x.length) :: s₁.reads } r.fits r.values
  refine ⟨x₁ ++ [efiDepNot], ⟨s₁.depex, stack, (iterator + x.length) :: s₁.reads⟩, n + 1, .not r.codes, ?_, ?_, ?_,
    hstack.values, r.grown.trans hstack.grown, Nat.le_trans r.room hstack.grown.le, ?_, fun fuel => ?_⟩
  · simp [r.length]
  · refine (at_append _ _ _ _).mpr ⟨r.placed, ?_⟩
    rw [r.length]
    exact hat₁
  · intro i hi
    simp only [List.length_append, List.length_singleton] at hi
    exact r.frame i (by omega)
  · have h := r.steps
    simp only [List.length_append, List.length_singleton]
    omega
  · have h := r.loop (fuel + 1)
    rw [show fuel + (n + 1) = fuel + 1 + n by omega, h,
      loop_go (by omega) ((instruction_not ((at_cons _ _ _ _).mp hat₁).1).trans hgo)]
    simp only [List.length_append, List.length_singleton, Nat.add_assoc]

theorem Codes.run_constant {e : Expr} {opcode : UInt8} (ha : env.TakesMore s.stack 1) (hdepth : e.depth = 1)
    (hcodes : Codes env.located e [opcode])
    (hop : ∀ i s, s.depex i = opcode →
      instruction env i s = pushed env (e.eval env.located) (i + 1) { s with reads := i :: s.reads })
    (hat : At s.depex iterator [opcode]) (hfit : iterator + [opcode].length ≤ size) :
    ∃ x' s' n, Ran env size e [opcode] iterator s x' s' n := by
  rw [List.length_singleton] at hfit
  obtain ⟨stack, hstack, hgo⟩ := pushed_eq (e.eval env.located) (iterator + 1)
    { s with reads := iterator :: s.reads } ha
  have hi := (hop _ _ ((at_cons _ _ _ _).mp hat).1).trans hgo
  exact ⟨[opcode], ⟨s.depex, stack, iterator :: s.reads⟩, 1, hcodes, rfl, hat, fun i _ => rfl,
    hstack.values, hstack.grown, hdepth ▸ hstack.room, Nat.le_refl _, fun fuel => loop_go (by omega) hi⟩

theorem Codes.run {e : Expr} {x : List UInt8} (h : Codes env.located e x) (size : Nat) (s : State)
    (ha : env.TakesMore s.stack e.depth) (hat : At s.depex iterator x) (hfit : iterator + x.length ≤ size) :
    ∃ x' s' n, Ran env size e x iterator s x' s' n := by
  induction h generalizing iterator s with
  | @push guid hg =>
    have hop := ((at_cons _ _ _ _).mp hat).1
    have hread : read s.depex (iterator + 1) sizeofGuid = guid := hg ▸ ((at_cons _ _ _ _).mp hat).2
    by_cases hl : env.located guid = true
    · refine run_push hg (.replaced hg hl) rfl ?_ hat hfit
      obtain ⟨stack, hstack, hgo⟩ := pushed_eq true (iterator + 1 + sizeofGuid)
        ⟨write s.depex iterator [efiDepReplaceTrue], s.stack,
          (List.range sizeofGuid).map (iterator + 1 + ·) ++ (iterator :: s.reads)⟩ ha
      refine ⟨stack, by rwa [Expr.eval, hl],
        (List.range sizeofGuid).map (iterator + 1 + ·) ++ (iterator :: s.reads), ?_⟩
      rw [instruction_push hop, pushGuid]
      simp only [hread, if_pos hl]
      exact hgo
    · have hl' : env.located guid = false := by simpa using hl
      refine run_push hg (.push hg) rfl ?_ hat hfit
      obtain ⟨stack, hstack, hgo⟩ := pushed_eq false (iterator + 1 + sizeofGuid)
        ⟨s.depex, s.stack, (List.range sizeofGuid).map (iterator + 1 + ·) ++ (iterator :: s.reads)⟩ ha
      refine ⟨stack, by rwa [Expr.eval, hl'],
        (List.range sizeofGuid).map (iterator + 1 + ·) ++ (iterator :: s.reads), ?_⟩
      have hself : write s.depex iterator [efiDepPush] = s.depex :=
        write_self ((at_cons _ _ _ _).mpr ⟨hop, at_nil _ _⟩)
      rw [instruction_push hop, pushGuid, hself]
      simp only [hread, if_neg hl]
      exact hgo
  | @replaced guid hg hl =>
    have hop := ((at_cons _ _ _ _).mp hat).1
    refine run_push hg (.replaced hg hl) rfl ?_ hat hfit
    obtain ⟨stack, hstack, hgo⟩ := pushed_eq true (iterator + 1 + sizeofGuid)
      ⟨s.depex, s.stack, iterator :: s.reads⟩ ha
    refine ⟨stack, by rwa [Expr.eval, hl], iterator :: s.reads, ?_⟩
    have hself : write s.depex iterator [efiDepReplaceTrue] = s.depex :=
      write_self ((at_cons _ _ _ _).mpr ⟨hop, at_nil _ _⟩)
    rw [instruction_replaceTrue hop, hself]
    exact hgo
  | and _ _ iha ihb =>
    exact run_binary ha rfl (fun _ _ => instruction_and) (fun _ _ => .and) (Bool.and_comm _ _) iha ihb hat hfit
  | or _ _ iha ihb =>
    exact run_binary ha rfl (fun _ _ => instruction_or) (fun _ _ => .or) (Bool.or_comm _ _) iha ihb hat hfit
  | not _ ih => exact run_not ih ha hat hfit
  | pushTrue => exact run_constant ha rfl .pushTrue (fun _ _ => instruction_true) hat hfit
  | pushFalse => exact run_constant ha rfl .pushFalse (fun _ _ => instruction_false) hat hfit

/-! ## One evaluation -/

theorem instruction_sor (h : s.depex 0 = efiDepSor) :
    instruction env 0 s = .go 1 { s with reads := 0 :: s.reads } := by
  simp [instruction, h]

/-- The first opcode is skipped when it is `SOR`. -/
theorem loop_sor (env : Environment) {sor : Bool} (fuel : Nat) {y : List UInt8} (hat : At s.depex 0 (sorCode sor ++ y))
    (hsize : (sorCode sor).length < size) :
    ∃ reads, loop env size (fuel + (sorCode sor).length) 0 s =
      loop env size fuel (sorCode sor).length { s with reads } := by
  cases sor with
  | false => exact ⟨s.reads, rfl⟩
  | true =>
    have hop := ((at_cons _ _ _ _).mp hat).1
    exact ⟨0 :: s.reads, loop_go (Nat.zero_lt_of_lt hsize) (instruction_sor hop)⟩

theorem loop_end (env : Environment) (fuel : Nat) (hop : s.depex iterator = efiDepEnd)
    (hs : s.stack.values = value :: values)
    (hlt : iterator < size) :
    ∃ s', loop env size (fuel + 1) iterator s = some (value, s') ∧ s'.depex = s.depex ∧
      s'.stack.size = s.stack.size := by
  obtain ⟨s', hi, hd, hsize⟩ := instruction_end env hop hs
  exact ⟨s', by rw [loop, if_neg (Nat.not_le.mpr hlt), hi], hd, hsize⟩

/-- The evaluation of a patched expression returns its value and leaves a patched expression, and a stack on which the
expression has room. -/
theorem Codes.evaluated {e : Expr} {x : List UInt8} {sor : Bool} {m : Memory} {n : Nat}
    (h : Codes env.located e x) (stackSize : Nat) (ha : env.Allocates stackSize e.depth)
    (hat : At m 0 (sorCode sor ++ (x ++ [efiDepEnd]))) (hn : (sorCode sor ++ (x ++ [efiDepEnd])).length = n) :
    ∃ x' m' o, coreIsSchedulable env ⟨some m, n, false, false⟩ stackSize = some o ∧ o.result = e.eval env.located ∧
      o.entry = ⟨some m', n, false, false⟩ ∧ Codes env.located e x' ∧
      At m' 0 (sorCode sor ++ (x' ++ [efiDepEnd])) ∧ (sorCode sor ++ (x' ++ [efiDepEnd])).length = n ∧
      e.depth ≤ o.stackSize := by
  simp only [List.length_append, List.length_singleton] at hn
  obtain ⟨reads, hsor⟩ := @loop_sor n ⟨m, ⟨[], stackSize⟩, []⟩ env sor (n + 1 - (sorCode sor).length) _ hat (by omega)
  have hat₁ := ((at_append _ _ _ _).mp hat).2
  rw [Nat.zero_add] at hat₁
  obtain ⟨x', s', k, r⟩ := h.run n ⟨m, ⟨[], stackSize⟩, reads⟩
    ⟨Nat.zero_le _, ha.mono (.refl _) (Nat.le_of_eq (Nat.zero_add _))⟩ ((at_append _ _ _ _).mp hat₁).1 (by omega)
  have hat₂ := at_behind hat₁ r.frame
  have hsteps := r.steps
  obtain ⟨s₂, hend, hd, hsize⟩ := loop_end env (n - (sorCode sor).length - k) ((at_cons _ _ _ _).mp hat₂).1 r.values
    (show (sorCode sor).length + x.length < n by omega)
  have hloop : loop env n (n + 1) 0 ⟨m, ⟨[], stackSize⟩, []⟩ = some (e.eval env.located, s₂) := by
    rw [show n + 1 = n + 1 - (sorCode sor).length + (sorCode sor).length by omega, hsor,
      show n + 1 - (sorCode sor).length = n - (sorCode sor).length - k + 1 + k by omega, r.loop, hend]
  refine ⟨x', s₂.depex, ⟨e.eval env.located, ⟨some s₂.depex, n, false, false⟩, s₂.stack.size, s₂.reads⟩, ?_, rfl, rfl,
    r.codes, ?_, ?_, ?_⟩
  · simp [coreIsSchedulable, hloop]
  · rw [hd]
    refine (at_append _ _ _ _).mpr ⟨?_, (at_append _ _ _ _).mpr ⟨?_, ?_⟩⟩
    · refine (at_congr _ _ _ _ fun i _ hi => ?_).mpr ((at_append _ _ _ _).mp hat).1
      exact r.frame i (.inl (by omega))
    · rw [Nat.zero_add]
      exact r.placed
    · rw [Nat.zero_add, r.length]
      exact hat₂
  · simp only [List.length_append, List.length_singleton, r.length]
    exact hn
  · have hroom := r.room
    rw [List.length_nil, Nat.zero_add] at hroom
    rwa [hsize]

end

/-! ## The whole dispatch -/

/-- Every protocol that is there stays there. -/
def Grows (env env' : Environment) : Prop := ∀ guid, env.located guid = true → env'.located guid = true

/-- Only the first evaluation makes the stack grow. -/
theorem Codes.evaluations {e : Expr} {sor : Bool} {n : Nat} {envs : List Environment} {x : List UInt8} {m : Memory}
    {stackSize : Nat} (hgrows : envs.Pairwise Grows) (ha : ∀ env ∈ envs.head?, env.Allocates stackSize e.depth)
    (h : ∀ env ∈ envs, Codes env.located e x) (hat : At m 0 (sorCode sor ++ (x ++ [efiDepEnd])))
    (hn : (sorCode sor ++ (x ++ [efiDepEnd])).length = n) :
    evaluations ⟨some m, n, false, false⟩ stackSize envs = some (envs.map fun env => e.eval env.located) := by
  induction envs generalizing x m stackSize with
  | nil => rfl
  | cons env envs ih =>
    rw [List.pairwise_cons] at hgrows
    obtain ⟨x', m', o, ho, hresult, hentry, hcodes, hat', hn', hroom⟩ :=
      (h env List.mem_cons_self).evaluated stackSize (ha env rfl) hat hn
    have hrest := @ih _ _ o.stackSize hgrows.2 (fun _ _ => allocates_of_le hroom)
      (fun env' h' => hcodes.mono (hgrows.1 env' h')) hat' hn'
    rw [Depex.evaluations, ho, Option.bind_some, hentry, hrest, Option.map_some, hresult, List.map_cons]

/-! ## Any buffer -/

/-- The size of the stack after a push, if there is memory for it. -/
def sizeAfterPush (env : Environment) (depth size : Nat) : Option Nat :=
  if depth = size then
    if env.allocates (depexStackSizeIncrement + size) then some (depexStackSizeIncrement + size) else none
  else some size

/-- Where an instruction leads, with the depth and the size of the stack there. -/
def follows (env : Environment) (opcode : UInt8) (iterator depth size : Nat) : Option (Nat × Nat × Nat) :=
  if opcode = efiDepBefore ∨ opcode = efiDepAfter ∨ opcode = efiDepSor then
    if iterator ≠ 0 then none else some (iterator + 1, depth, size)
  else if opcode = efiDepPush ∨ opcode = efiDepReplaceTrue then
    (sizeAfterPush env depth size).map (iterator + 1 + sizeofGuid, depth + 1, ·)
  else if opcode = efiDepAnd ∨ opcode = efiDepOr then
    if depth < 2 then none else (sizeAfterPush env (depth - 2) size).map (iterator + 1, depth - 1, ·)
  else if opcode = efiDepNot then
    if depth < 1 then none else (sizeAfterPush env (depth - 1) size).map (iterator + 1, depth, ·)
  else if opcode = efiDepTrue ∨ opcode = efiDepFalse then
    (sizeAfterPush env depth size).map (iterator + 1, depth + 1, ·)
  else none

/-- The offsets of the opcodes that the evaluation comes to. -/
def visited (env : Environment) (depexSize : Nat) (depex : Memory) : Nat → Nat → Nat → Nat → List Nat
  | 0, _, _, _ => []
  | fuel + 1, iterator, depth, size =>
    if depexSize ≤ iterator then []
    else
      iterator ::
        match follows env (depex iterator) iterator depth size with
        | none => []
        | some (iterator, depth, size) => visited env depexSize depex fuel iterator depth size

/-- Every `PUSH` that the evaluation comes to has its GUID in the buffer. -/
def PushesFit (env : Environment) (depex : Memory) (depexSize stackSize : Nat) : Prop :=
  ∀ i ∈ visited env depexSize depex (depexSize + 1) 0 0 stackSize, depex i = efiDepPush → i + sizeofGuid < depexSize

section
variable {env : Environment} {iterator size : Nat} {s : State}

/-- The offsets that an instruction reads. -/
def readBy (opcode : UInt8) (iterator : Nat) : List Nat :=
  (if opcode = efiDepPush then (List.range sizeofGuid).map (iterator + 1 + ·) else []) ++ [iterator]

theorem readBy_fits (opcode : UInt8) {iterator n : Nat} (h : iterator < n) :
    (∀ i ∈ readBy opcode iterator, i < n) ↔ (opcode = efiDepPush → iterator + sizeofGuid < n) := by
  simp only [readBy, List.mem_append, List.mem_singleton]
  constructor
  · intro hr hop
    refine hr _ (.inl ?_)
    rw [if_pos hop, List.mem_map]
    exact ⟨15, by simp [sizeofGuid], rfl⟩
  · rintro hr i (hi | rfl)
    · split at hi
      · rename_i hop
        have := hr hop
        simp only [List.mem_map, List.mem_range] at hi
        obtain ⟨j, hj, rfl⟩ := hi
        omega
      · simp at hi
    · exact h

/-- What an instruction does, as seen from the depth of the stack. -/
def Next.Follows (next : Next) (s : State) (reads : List Nat) (iterator : Nat) (target : Option (Nat × Nat × Nat)) : Prop :=
  match next with
  | .done _ s' => target = none ∧ s'.reads = reads ++ s.reads
  | .go i s' => target = some (i, s'.stack.values.length, s'.stack.size) ∧ iterator < i ∧ s'.reads = reads ++ s.reads ∧
      ∀ j, iterator < j → s'.depex j = s.depex j

theorem pushed_follows {value : Bool} {depth i : Nat} {s₀ : State} {reads : List Nat}
    (hd : s.stack.values.length = depth) (hi : iterator < i) (hr : s.reads = reads ++ s₀.reads)
    (hm : ∀ j, iterator < j → s.depex j = s₀.depex j) :
    (pushed env value i s).Follows s₀ reads iterator ((sizeAfterPush env depth s.stack.size).map (i, depth + 1, ·)) := by
  subst hd
  simp only [pushed, pushBool, sizeAfterPush]
  by_cases hfull : s.stack.values.length = s.stack.size
  · rw [if_pos hfull, if_pos hfull, growDepexStack]
    split
    · rename_i h
      split at h
      · cases h
      · rename_i hno
        rw [if_neg hno]
        exact ⟨rfl, hr⟩
    · rename_i stack h
      split at h
      · rename_i hyes
        obtain rfl := Option.some.inj h
        rw [if_pos hyes]
        exact ⟨rfl, hi, hr, hm⟩
      · cases h
  · rw [if_neg hfull, if_neg hfull]
    exact ⟨rfl, hi, hr, hm⟩

theorem unary_follows {f : Bool → Bool} {depth i : Nat} {s₀ : State} {reads : List Nat}
    (hd : s.stack.values.length = depth) (hi : iterator < i) (hr : s.reads = reads ++ s₀.reads)
    (hm : ∀ j, iterator < j → s.depex j = s₀.depex j) :
    (unary env f i s).Follows s₀ reads iterator
      (if depth < 1 then none else (sizeAfterPush env (depth - 1) s.stack.size).map (i, depth, ·)) := by
  subst hd
  unfold unary popBool
  cases hv : s.stack.values with
  | nil => exact ⟨rfl, hr⟩
  | cons value values => exact pushed_follows rfl hi hr hm

theorem binary_follows {f : Bool → Bool → Bool} {depth i : Nat} {s₀ : State} {reads : List Nat}
    (hd : s.stack.values.length = depth) (hi : iterator < i) (hr : s.reads = reads ++ s₀.reads)
    (hm : ∀ j, iterator < j → s.depex j = s₀.depex j) :
    (binary env f i s).Follows s₀ reads iterator
      (if depth < 2 then none else (sizeAfterPush env (depth - 2) s.stack.size).map (i, depth - 1, ·)) := by
  subst hd
  unfold binary popBool
  match hv : s.stack.values with
  | [] => exact ⟨rfl, hr⟩
  | [_] => exact ⟨rfl, hr⟩
  | _ :: _ :: values => exact pushed_follows rfl hi hr hm

theorem instruction_follows (env : Environment) (iterator : Nat) (s : State) :
    (instruction env iterator s).Follows s (readBy (s.depex iterator) iterator) iterator
      (follows env (s.depex iterator) iterator s.stack.values.length s.stack.size) := by
  unfold instruction follows readBy
  generalize s.depex iterator = opcode
  by_cases h1 : opcode = efiDepBefore ∨ opcode = efiDepAfter ∨ opcode = efiDepSor
  · have hpush : opcode ≠ efiDepPush := by rcases h1 with rfl | rfl | rfl <;> decide
    rw [if_pos h1, if_pos h1, if_neg hpush]
    by_cases hi : iterator ≠ 0
    · rw [if_pos hi, if_pos hi]
      exact ⟨rfl, rfl⟩
    · rw [if_neg hi, if_neg hi]
      exact ⟨rfl, Nat.lt_succ_self _, rfl, fun _ _ => rfl⟩
  · rw [if_neg h1, if_neg h1]
    clear h1
    by_cases h2 : opcode = efiDepPush
    · subst h2
      simp only [true_or, if_true, pushGuid]
      split
      · refine pushed_follows rfl (by omega) (by simp) fun j hj => ?_
        exact write_outside _ _ _ _ (.inr hj)
      · exact pushed_follows rfl (by omega) (by simp) fun _ _ => rfl
    rw [if_neg h2, if_neg h2, List.nil_append]
    by_cases h3 : opcode = efiDepAnd
    · subst h3
      exact binary_follows rfl (Nat.lt_succ_self _) rfl fun _ _ => rfl
    rw [if_neg h3]
    by_cases h4 : opcode = efiDepOr
    · subst h4
      exact binary_follows rfl (Nat.lt_succ_self _) rfl fun _ _ => rfl
    rw [if_neg h4]
    by_cases h5 : opcode = efiDepNot
    · subst h5
      exact unary_follows rfl (Nat.lt_succ_self _) rfl fun _ _ => rfl
    rw [if_neg h5]
    by_cases h6 : opcode = efiDepTrue
    · subst h6
      exact pushed_follows rfl (Nat.lt_succ_self _) rfl fun _ _ => rfl
    rw [if_neg h6]
    by_cases h7 : opcode = efiDepFalse
    · subst h7
      exact pushed_follows rfl (Nat.lt_succ_self _) rfl fun _ _ => rfl
    rw [if_neg h7]
    by_cases h8 : opcode = efiDepEnd
    · subst h8
      unfold popBool
      cases s.stack.values with
      | nil => exact ⟨rfl, rfl⟩
      | cons value values => exact ⟨rfl, rfl⟩
    rw [if_neg h8]
    by_cases h9 : opcode = efiDepReplaceTrue
    · subst h9
      exact pushed_follows rfl (by omega) rfl fun _ _ => rfl
    rw [if_neg h9, if_neg (by simp [h2, h9]), if_neg (by simp [h3, h4]), if_neg h5, if_neg (by simp [h6, h7])]
    exact ⟨rfl, rfl⟩

/-- The evaluation ends, and reads inside the buffer just when every `PUSH` it comes to has its GUID there. -/
theorem loop_reads {n : Nat} (fuel : Nat) (s : State) {m : Memory} (hfuel : n - iterator < fuel)
    (hm : ∀ j, iterator ≤ j → s.depex j = m j) :
    ∃ result s', loop env n fuel iterator s = some (result, s') ∧
      ((∀ i ∈ s'.reads, i < n) ↔ (∀ i ∈ s.reads, i < n) ∧
        ∀ i ∈ visited env n m fuel iterator s.stack.values.length s.stack.size,
          m i = efiDepPush → i + sizeofGuid < n) := by
  induction fuel generalizing iterator s with
  | zero => omega
  | succ fuel ih =>
    unfold loop visited
    by_cases hend : n ≤ iterator
    · rw [if_pos hend, if_pos hend]
      exact ⟨false, s, rfl, by simp⟩
    rw [if_neg hend, if_neg hend]
    have hstep := instruction_follows env iterator s
    have hread := readBy_fits (m iterator) (Nat.not_le.mp hend)
    rw [hm iterator (Nat.le_refl _)] at hstep
    cases hi : instruction env iterator s with
    | done result s' =>
      rw [hi] at hstep
      obtain ⟨hto, hr⟩ := hstep
      refine ⟨result, s', rfl, ?_⟩
      rw [hto, hr]
      simp only [List.forall_mem_append, List.forall_mem_singleton, hread]
      exact and_comm
    | go i s' =>
      rw [hi] at hstep
      obtain ⟨hto, hlt, hr, hdepex⟩ := hstep
      obtain ⟨result, s₂, hloop, hiff⟩ := @ih i s' (by omega) fun j hj => by
        rw [hdepex j (by omega), hm j (by omega)]
      refine ⟨result, s₂, hloop, ?_⟩
      rw [hiff, hto, hr]
      simp only [List.forall_mem_append, List.forall_mem_cons, hread]
      constructor
      · rintro ⟨⟨h1, h2⟩, h3⟩
        exact ⟨h2, h1, h3⟩
      · rintro ⟨h2, h1, h3⟩
        exact ⟨⟨h1, h2⟩, h3⟩

end

/-- Expressions have their truth value in each database of a growing sequence, where the stack can grow as far as they
need it, and the evaluation of any buffer ends and stays inside just when its `PUSH`es fit. -/
theorem coreIsSchedulable_correct (depex : Memory) (stackSize : Nat) :
    (∀ (e : Expr) (sor : Bool) (envs : List Environment),
      e.WellFormed → At depex 0 (e.depex sor) → envs.Pairwise Grows →
      (∀ env ∈ envs.head?, env.Allocates stackSize e.depth) →
      evaluations ⟨some depex, (e.depex sor).length, false, false⟩ stackSize envs =
        some (envs.map fun env => e.eval env.located)) ∧
    ∀ (env : Environment) (depexSize : Nat),
      ∃ o, coreIsSchedulable env ⟨some depex, depexSize, false, false⟩ stackSize = some o ∧
        ((∀ i ∈ o.reads, i < depexSize) ↔ PushesFit env depex depexSize stackSize) := by
  constructor
  · intro e sor envs he hat hgrows ha
    exact Codes.evaluations hgrows ha (fun _ _ => codes_encode he) hat rfl
  · intro env depexSize
    obtain ⟨result, s, hloop, hiff⟩ := @loop_reads env 0 depexSize (depexSize + 1) ⟨depex, ⟨[], stackSize⟩, []⟩ depex
      (by omega) fun _ _ => rfl
    refine ⟨⟨result, ⟨some s.depex, depexSize, false, false⟩, s.stack.size, s.reads⟩, ?_, ?_⟩
    · simp [coreIsSchedulable, hloop]
    · rw [hiff]
      simp [PushesFit]

/-! ## Runs -/

def guidOf (b : UInt8) : Guid := List.replicate sizeofGuid b

/-- `1 AND (NOT 2 OR FALSE)`. -/
def sampleExpr : Expr := .and (.push (guidOf 1)) (.or (.not (.push (guidOf 2))) .false)

def sampleDepex : Memory := fun i => (sampleExpr.depex true).getD i 0

/-- The core with the protocols of some GUIDs. -/
def environmentOf (guids : List Guid) : Environment := ⟨fun guid => guid ∈ guids, fun _ => true, true⟩

example : evaluations ⟨some sampleDepex, (sampleExpr.depex true).length, false, false⟩ 0
    [environmentOf [], environmentOf [guidOf 1], environmentOf [guidOf 1, guidOf 2]] =
      some [false, true, false] := by
  decide +kernel

theorem coreIsSchedulable_correct_sample :
    evaluations ⟨some sampleDepex, (sampleExpr.depex true).length, false, false⟩ 0
      [environmentOf [], environmentOf [guidOf 1], environmentOf [guidOf 1, guidOf 2]] =
        some [false, true, false] := by
  refine ((coreIsSchedulable_correct sampleDepex 0).1 sampleExpr true _ ⟨rfl, rfl, trivial⟩
    (show read _ _ _ = _ by decide +kernel) ?_ ?_).trans
    (by decide +kernel)
  · simp [Grows, environmentOf]
  · simp [Environment.Allocates, environmentOf]

/-- A lone `PUSH` has the 16 bytes behind the buffer read. -/
theorem push_reads_behind :
    ∃ o, coreIsSchedulable (environmentOf []) ⟨some fun _ => efiDepPush, 1, false, false⟩ 0 = some o ∧
      ¬∀ i ∈ o.reads, i < 1 := by
  refine ⟨_, rfl, fun h => ?_⟩
  exact absurd (h 16 (by decide +kernel)) (by decide)

end Udk.Depex
