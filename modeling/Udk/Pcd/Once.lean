import Mathlib.Data.List.Count
import Udk.Pcd.Callback

/-! # Each callback is called once for a set -/

namespace Udk.Pcd

variable {δ : Type} {b : Build δ} {s s' : State δ}

/-- The callbacks that were called. -/
def Activation.entries (a : Activation) : List CallbackFnEntry := a.called.map (·.entry)

/-- The callback was told what was set: the token space and the number in it, or the local number. -/
def Addressed (set : SetCall) (n : Notification) : Prop :=
  (match set.ex with
    | some (guid, exTokenNumber) => n.guid = some guid ∧ n.tokenNumber = exTokenNumber
    | none => n.guid = none ∧ n.tokenNumber = set.tokenNumber) ∧
  n.data = set.data ∧ n.size = set.size

/-- What is expected of a set once it has returned. -/
structure Returned.Correct (r : Returned) : Prop where
  once : r.outcome ≠ .sizeRejected → ∀ e ∈ r.activation.start, e ∈ r.registered → r.activation.entries.count e = 1
  addressed : ∀ n ∈ r.activation.called, Addressed r.activation.set n
  rejected : r.outcome = .sizeRejected → r.activation.called = []

/-- Sets that have returned are correct, those under way have called nothing twice, and no walk has read a freed
entry. -/
structure CalledOnce (s : State δ) : Prop where
  returned : ∀ r ∈ s.returned, r.Correct
  underWay : ∀ f ∈ s.stack, f.activation.entries.Nodup ∧ ∀ n ∈ f.activation.called, Addressed f.activation.set n
  intact : s.touchedFreed = false

/-- A token space is set when nothing is registered for the token, and no entry is freed at which a walk stands. -/
def StaysSafe (b : Build δ) (s : State δ) : Event → Prop
  | .exSetWorker exTokenNumber guid _ _ _ =>
    ∀ token ∈ getExPcdTokenNumber b guid (uint32 exTokenNumber), s.mCallbackFnTable token = []
  | .unregister tokenNumber guid callbackFn =>
    ∀ f ∈ s.stack, tokenOf b guid tokenNumber = some f.activation.set.tokenNumber → f.listNode.callbackFn ≠ callbackFn
  | _ => True

instance (e : Event) : Decidable (StaysSafe b s e) := by
  cases e <;> unfold StaysSafe <;> infer_instance

/-! ## Sizes -/

/-- What was accepted is no longer than the value may become. -/
def Fits (b : Build δ) (set : SetCall) : Prop :=
  b.datumSize set.tokenNumber = 0 → set.size ≤ b.maxSize set.tokenNumber

def SizesOk (b : Build δ) (d : Database δ) : Prop := ∀ token, d.currentSize token ≤ b.maxSize token

theorem sizeAccepted_fits {set : SetCall} {d : Database δ} (hd : SizesOk b d) (h : sizeAccepted b set d = true) :
    Fits b set := by
  intro hdatum
  have hget : dxePcdGetSize b set.tokenNumber d ≤ b.maxSize set.tokenNumber := by
    unfold dxePcdGetSize
    rw [if_pos hdatum]
    split
    · exact Nat.le_refl _
    · exact hd _
  unfold sizeAccepted at h
  split at h
  · exact Nat.le_trans (of_decide_eq_true h) hget
  · exact Nat.le_trans (Nat.le_of_eq (of_decide_eq_true h)) hget

theorem setPtrTypeSize_spec {token size : Nat} {d d' : Database δ} {fits : Bool} (hd : SizesOk b d)
    (hfit : b.datumSize token = 0 → size ≤ b.maxSize token) (h : setPtrTypeSize b token size d = some (fits, d')) :
    fits = true ∧ SizesOk b d' := by
  unfold setPtrTypeSize at h
  split at h
  · cases h
  rename_i hno
  have hle := hfit (by_contra fun hne => hno (.inl hne))
  have hlt := b.maxSize_lt token
  rw [if_neg (by unfold maxAddress; omega)] at h
  simp only [Option.some.injEq, Prod.mk.injEq] at h
  obtain ⟨rfl, rfl⟩ := h
  refine ⟨rfl, fun t => ?_⟩
  dsimp only
  split
  · rename_i heq
    exact heq ▸ hle
  · exact hd t

/-- A value that is set keeps the sizes. -/
theorem setHii_currentSize (token data size : Nat) (d : Database δ) :
    (setHii b token data size d).2.currentSize = d.currentSize := by
  unfold setHii
  split <;> rfl

theorem setSized_spec {token size : Nat} {d d' : Database δ} {setValue : Database δ → EfiStatus × Database δ}
    {outcome : Outcome} (hd : SizesOk b d) (hfit : b.datumSize token = 0 → size ≤ b.maxSize token)
    (hvalue : ∀ d, (setValue d).2.currentSize = d.currentSize)
    (h : setSized b token size d setValue = some (outcome, d')) : outcome ≠ .sizeRejected ∧ SizesOk b d' := by
  obtain ⟨⟨fits, d₁⟩, h₁, h₂⟩ := Option.map_eq_some_iff.mp h
  obtain ⟨rfl, hd₁⟩ := setPtrTypeSize_spec hd hfit h₁
  simp only [if_true, Prod.mk.injEq] at h₂
  obtain ⟨rfl, rfl⟩ := h₂
  refine ⟨nofun, fun t => ?_⟩
  rw [hvalue]
  exact hd₁ t

/-- What was accepted is not rejected later. -/
theorem setLocked_spec {set : SetCall} {d d' : Database δ} {outcome : Outcome} (hd : SizesOk b d) (hfit : Fits b set)
    (h : setLocked b set.tokenNumber set.data set.size set.ptrType d = some (outcome, d')) :
    outcome ≠ .sizeRejected ∧ SizesOk b d' := by
  unfold setLocked at h
  split at h
  · cases h
  · exact setSized_spec hd hfit (fun _ => rfl) h
  · split at h
    · exact setSized_spec hd hfit (setHii_currentSize _ _ _) h
    · simp only [Option.some.injEq, Prod.mk.injEq] at h
      obtain ⟨rfl, rfl⟩ := h
      refine ⟨nofun, fun t => ?_⟩
      rw [setHii_currentSize]
      exact hd t
  · split at h
    · exact setSized_spec hd hfit (fun _ => rfl) h
    split at h
    · simp only [Option.some.injEq, Prod.mk.injEq] at h
      obtain ⟨rfl, rfl⟩ := h
      exact ⟨nofun, hd⟩
    · cases h

theorem invokes_always (b : Build δ) (token : Nat) : invokes b token = true := by
  unfold invokes
  simp only [Bool.or_eq_true, decide_eq_true_eq]
  omega

/-! ## The invariant -/

/-- A walk through the list `l`: what is behind its node is still to come, the rest has been called. -/
structure Walking (b : Build δ) (l : List CallbackFnEntry) (allocations : Nat) (f : Frame) : Prop where
  phase : f.phase = .setWorker
  plain : f.activation.set.ex = none
  fits : Fits b f.activation.set
  addressed : ∀ n ∈ f.activation.called, Addressed f.activation.set n
  nodup : f.activation.entries.Nodup
  allocated : ∀ e ∈ f.activation.entries, e.allocation < allocations
  mem : f.listNode ∈ l
  reached : ∀ e ∈ l, e ∈ Cursor.behind (some f.listNode) l ∨ e ∈ f.activation.entries
  waiting : ∀ e ∈ Cursor.behind (some f.listNode) l, e ∉ f.activation.entries

structure Inv (b : Build δ) (s : State δ) : Prop where
  fresh : ∀ token, ∀ e ∈ s.mCallbackFnTable token, e.allocation < s.allocations
  nodup : ∀ token, (s.mCallbackFnTable token).Nodup
  sizes : SizesOk b s.database
  frames : ∀ f ∈ s.stack, Walking b (s.mCallbackFnTable f.activation.set.tokenNumber) s.allocations f
  returned : ∀ r ∈ s.returned, r.Correct
  intact : s.touchedFreed = false

theorem Walking.valid {l : List CallbackFnEntry} {n : Nat} {f : Frame} (h : Walking b l n f) :
    Cursor.Valid (some f.listNode) l := by
  rintro p hp
  obtain rfl := Option.some.inj hp
  exact h.mem

/-! ## Registering -/

theorem Walking.register {l : List CallbackFnEntry} {n : Nat} {f : Frame} (callbackFn : Callback)
    (h : Walking b l n f) : Walking b (l ++ [⟨n, callbackFn⟩]) (n + 1) f := by
  have hb := Cursor.behind_append h.valid [⟨n, callbackFn⟩]
  refine ⟨h.phase, h.plain, h.fits, h.addressed, h.nodup, fun e he => Nat.lt_succ_of_lt (h.allocated e he),
    List.mem_append_left _ h.mem, fun e he => ?_, fun e he => ?_⟩
  · rw [hb]
    rcases List.mem_append.mp he with hl | hnew
    · exact (h.reached e hl).imp_left (List.mem_append_left _)
    · exact .inl (List.mem_append_right _ hnew)
  · rw [hb] at he
    rcases List.mem_append.mp he with hl | hnew
    · exact h.waiting e hl
    · obtain rfl := List.mem_singleton.mp hnew
      exact fun hcalled => absurd (h.allocated _ hcalled) (Nat.lt_irrefl _)

theorem Walking.later {l : List CallbackFnEntry} {n : Nat} {f : Frame} (h : Walking b l n f) : Walking b l (n + 1) f :=
  { h with allocated := fun e he => Nat.lt_succ_of_lt (h.allocated e he) }

theorem Inv.register (h : Inv b s) (token : Nat) (callbackFn : Callback) :
    Inv b (dxeRegisterCallBackWorker token callbackFn s) := by
  unfold dxeRegisterCallBackWorker
  dsimp only
  split
  · exact h
  refine ⟨fun t e he => ?_, fun t => ?_, h.sizes, fun f hf => ?_, h.returned, h.intact⟩
  · dsimp only [setList] at he ⊢
    split at he
    · rcases List.mem_append.mp he with hl | hnew
      · exact Nat.lt_succ_of_lt (h.fresh _ e hl)
      · obtain rfl := List.mem_singleton.mp hnew
        exact Nat.lt_succ_self _
    · exact Nat.lt_succ_of_lt (h.fresh _ e he)
  · dsimp only [setList]
    split
    · refine List.nodup_append.mpr ⟨h.nodup _, List.nodup_singleton _, fun e he e' he' heq => ?_⟩
      obtain rfl := List.mem_singleton.mp he'
      subst heq
      exact absurd (h.fresh _ _ he) (Nat.lt_irrefl _)
    · exact h.nodup t
  · have hw := h.frames f hf
    dsimp only [setList]
    split
    · rename_i heq
      rw [heq] at hw
      exact hw.register callbackFn
    · exact hw.later

theorem Walking.unregister {l : List CallbackFnEntry} {n : Nat} {f : Frame} {entry : CallbackFnEntry}
    (h : Walking b l n f) (hne : f.listNode ≠ entry) : Walking b (l.filter (· ≠ entry)) n f := by
  have hne' : some f.listNode ≠ some entry := fun heq => hne (Option.some.inj heq)
  have hb := Cursor.behind_filter h.valid hne'
  refine ⟨h.phase, h.plain, h.fits, h.addressed, h.nodup, h.allocated, h.valid.filter hne' _ rfl, fun e he => ?_,
    fun e he => ?_⟩
  · obtain ⟨hl, hkeep⟩ := List.mem_filter.mp he
    rw [hb]
    exact (h.reached e hl).imp_left fun hmem => List.mem_filter.mpr ⟨hmem, hkeep⟩
  · rw [hb] at he
    exact h.waiting e (List.mem_filter.mp he).1

theorem Inv.unregister (h : Inv b s) (token : Nat) (callbackFn : Callback)
    (hsafe : ∀ f ∈ s.stack, token = f.activation.set.tokenNumber → f.listNode.callbackFn ≠ callbackFn) :
    Inv b (dxeUnRegisterCallBackWorker token callbackFn s).2 := by
  unfold dxeUnRegisterCallBackWorker
  dsimp only
  split
  · exact h
  rename_i entry hfind
  have hfn : entry.callbackFn = callbackFn := by simpa using List.find?_some hfind
  refine ⟨fun t e he => ?_, fun t => ?_, h.sizes, fun f hf => ?_, h.returned, h.intact⟩
  · dsimp only [setList] at he ⊢
    split at he
    · exact h.fresh _ e (List.mem_filter.mp he).1
    · exact h.fresh _ e he
  · dsimp only [setList]
    split
    · exact (h.nodup _).filter _
    · exact h.nodup t
  · have hw := h.frames f hf
    dsimp only [setList]
    split
    · rename_i heq
      rw [heq] at hw
      refine hw.unregister fun hnode => hsafe f hf heq.symm ?_
      rw [hnode, hfn]
    · exact hw

/-! ## Sets -/

theorem Inv.returnSet (h : Inv b s) {a : Activation} {outcome : Outcome}
    (hr : Returned.Correct ⟨a, outcome, s.mCallbackFnTable a.set.tokenNumber⟩) : Inv b (returnSet s a outcome) := by
  refine ⟨h.fresh, h.nodup, h.sizes, h.frames, fun r hmem => ?_, h.intact⟩
  rcases List.mem_cons.mp hmem with rfl | hmem
  · exact hr
  · exact h.returned r hmem

/-- All callbacks of the list were called, each once. -/
theorem Inv.afterCallbacks (h : Inv b s) {a : Activation} (hfits : Fits b a.set) (hnodup : a.entries.Nodup)
    (haddressed : ∀ n ∈ a.called, Addressed a.set n)
    (hall : ∀ e ∈ s.mCallbackFnTable a.set.tokenNumber, e ∈ a.entries)
    (hs : afterCallbacks b s a = some s') : Inv b s' := by
  obtain ⟨⟨outcome, database⟩, hlocked, rfl⟩ := Option.map_eq_some_iff.mp hs
  obtain ⟨hout, hsizes⟩ := setLocked_spec h.sizes hfits hlocked
  have hinv : Inv b { s with database } := { h with sizes := hsizes }
  refine hinv.returnSet ⟨fun _ e _ he => ?_, haddressed, fun heq => absurd heq hout⟩
  exact List.count_eq_one_of_mem hnodup (hall e he)

theorem Inv.call (h : Inv b s) {f : Frame}
    (hf : Walking b (s.mCallbackFnTable f.activation.set.tokenNumber) s.allocations f) :
    Inv b { s with stack := f :: s.stack } := by
  refine ⟨h.fresh, h.nodup, h.sizes, fun f' hmem => ?_, h.returned, h.intact⟩
  rcases List.mem_cons.mp hmem with rfl | hmem
  · exact hf
  · exact h.frames f' hmem

theorem addressed_plain {set : SetCall} {node : CallbackFnEntry} (h : set.ex = none) :
    Addressed set (notification set .setWorker node) := by
  simp [Addressed, notification, h]

/-- A walk whose node is at `position` goes on. -/
theorem Inv.setWorkerWalk (h : Inv b s) {a : Activation} (position : Option CallbackFnEntry)
    (hplain : a.set.ex = none ∨ s.mCallbackFnTable a.set.tokenNumber = []) (hfits : Fits b a.set)
    (haddressed : ∀ n ∈ a.called, Addressed a.set n) (hnodup : a.entries.Nodup)
    (hallocated : ∀ e ∈ a.entries, e.allocation < s.allocations)
    (hvalid : Cursor.Valid position (s.mCallbackFnTable a.set.tokenNumber))
    (hreached : ∀ e ∈ s.mCallbackFnTable a.set.tokenNumber,
      e ∈ Cursor.behind position (s.mCallbackFnTable a.set.tokenNumber) ∨ e ∈ a.entries)
    (hwaiting : ∀ e ∈ Cursor.behind position (s.mCallbackFnTable a.set.tokenNumber), e ∉ a.entries)
    (hs : setWorkerWalk b s a (Cursor.behind position (s.mCallbackFnTable a.set.tokenNumber)) = some s') :
    Inv b s' := by
  generalize hl : Cursor.behind position (s.mCallbackFnTable a.set.tokenNumber) = l at hreached hwaiting hs
  cases l with
  | nil =>
    refine h.afterCallbacks hfits hnodup haddressed (fun e he => ?_) hs
    exact (hreached e he).resolve_left List.not_mem_nil
  | cons node rest =>
    obtain rfl := Option.some.inj hs
    obtain ⟨hmem, hrest⟩ := Cursor.behind_next (h.nodup _) hvalid hl
    have hex : a.set.ex = none := hplain.resolve_right fun hnil => List.not_mem_nil (hnil ▸ hmem)
    have hnew : node ∉ a.entries := hwaiting node List.mem_cons_self
    have hnode : node ∉ rest :=
      (List.nodup_cons.mp (hl ▸ (h.nodup _).sublist (Cursor.behind_sublist position _))).1
    refine h.call ⟨rfl, hex, hfits, fun n hn => ?_, List.nodup_cons.mpr ⟨hnew, hnodup⟩, fun e he => ?_, hmem,
      fun e he => ?_, fun e he => ?_⟩
    · rcases List.mem_cons.mp hn with rfl | hn
      · exact addressed_plain hex
      · exact haddressed n hn
    · rcases List.mem_cons.mp he with rfl | he
      · exact h.fresh _ _ hmem
      · exact hallocated e he
    · dsimp only
      rw [hrest]
      rcases hreached e he with hb | hcalled
      · rcases List.mem_cons.mp hb with rfl | hb
        · exact .inr List.mem_cons_self
        · exact .inl hb
      · exact .inr (List.mem_cons_of_mem _ hcalled)
    · dsimp only at he
      rw [hrest] at he
      intro hcalled
      rcases List.mem_cons.mp hcalled with rfl | hcalled
      · exact hnode he
      · exact hwaiting e (List.mem_cons_of_mem _ he) hcalled

theorem Inv.setWorker (h : Inv b s) (set : SetCall) (hplain : set.ex = none ∨ s.mCallbackFnTable set.tokenNumber = [])
    (hs : setWorker b s ⟨set, s.mCallbackFnTable set.tokenNumber, []⟩ = some s') : Inv b s' := by
  unfold Pcd.setWorker at hs
  split at hs
  · cases hs
  split at hs
  · obtain rfl := Option.some.inj hs
    exact h.returnSet ⟨fun hne => absurd rfl hne, nofun, fun _ => rfl⟩
  rename_i hsize
  rw [if_pos (invokes_always b _)] at hs
  have hfits := sizeAccepted_fits h.sizes (by simpa using hsize)
  exact h.setWorkerWalk (a := ⟨set, s.mCallbackFnTable set.tokenNumber, []⟩) none hplain hfits nofun List.nodup_nil nofun
    (Cursor.valid_none _) (fun e he => .inl he) (fun _ _ => List.not_mem_nil) hs

theorem Inv.getNextNode (h : Inv b s) {f : Frame} {stack : List Frame} (hstack : s.stack = f :: stack)
    (hs : getNextNode b { s with stack } f = some s') : Inv b s' := by
  have hw := h.frames f (hstack ▸ List.mem_cons_self)
  have hinv : Inv b { s with stack } :=
    { h with frames := fun f' hf' => h.frames f' (hstack ▸ List.mem_cons_of_mem _ hf') }
  unfold Pcd.getNextNode at hs
  dsimp only at hs
  rw [if_neg (not_not_intro hw.mem), hw.phase] at hs
  exact hinv.setWorkerWalk _ (.inl hw.plain) hw.fits hw.addressed hw.nodup hw.allocated hw.valid hw.reached hw.waiting hs

theorem step_inv {e : Event} (h : Inv b s) (hsafe : StaysSafe b s e) (hs : step b s e = some s') : Inv b s' := by
  unfold step at hs
  rw [if_neg (by simp [h.intact])] at hs
  cases e with
  | register tokenNumber guid callbackFn =>
    obtain ⟨token, -, hs⟩ := Option.bind_eq_some_iff.mp hs
    split at hs
    · obtain rfl := Option.some.inj hs
      exact h.register token callbackFn
    · cases hs
  | unregister tokenNumber guid callbackFn =>
    obtain ⟨token, htoken, hs⟩ := Option.bind_eq_some_iff.mp hs
    split at hs
    · obtain rfl := Option.some.inj hs
      exact h.unregister token callbackFn fun f hf heq => hsafe f hf (heq ▸ htoken)
    · cases hs
  | setWorker tokenNumber data size ptrType => exact h.setWorker ⟨none, tokenNumber, data, size, ptrType⟩ (.inl rfl) hs
  | exSetWorker exTokenNumber guid data size ptrType =>
    obtain ⟨token, htoken, hs⟩ := Option.bind_eq_some_iff.mp hs
    have hnil := hsafe token htoken
    dsimp only at hs
    rw [hnil] at hs
    refine h.setWorker ⟨some (guid, exTokenNumber), token, data, size, ptrType⟩ (.inr hnil) ?_
    rw [hnil]
    exact hs
  | callbackReturns =>
    dsimp only at hs
    split at hs
    · cases hs
    · rename_i f stack hstack
      exact h.getNextNode hstack hs

theorem init_inv {database : Database δ} (h : SizesOk b database) : Inv b (init database) :=
  ⟨nofun, fun _ => List.nodup_nil, h, nofun, nofun, rfl⟩

/-- In every run whose steps stay safe, each set calls each of its callbacks once, and no walk reads a freed entry. -/
theorem callbacks_called_once (b : Build δ) (database : Database δ) (hsizes : SizesOk b database) (es : List Event)
    (s : State δ) (h : Run (step b) (StaysSafe b) (init database) es s) : CalledOnce s := by
  have hinv := h.invariant (Inv b) (init_inv hsizes) fun s e s' hi hok hs => step_inv hi hok hs
  exact ⟨hinv.returned, fun f hf => ⟨(hinv.frames f hf).nodup, (hinv.frames f hf).addressed⟩, hinv.intact⟩

/-! ## Runs -/

/-- Three tokens: a scalar, a scalar of token space 9 with the number 77 there, and a pointer type of up to 16 bytes. -/
def sampleBuild : Build Unit where
  peiNexTokenNumber := 1
  peiLocalTokenNumber := 1
  dxeNexTokenNumber := 0
  pcdTotalTokenNumber := 3
  peiDatabaseEmpty := false
  peiExMap := ⟨[], []⟩
  dxeExMap := ⟨[9], [⟨77, 2, 0⟩]⟩
  pcdType _ := .data
  datumSize token := if token = 3 then 0 else 4
  maxSize _ := 16
  maxSize_lt _ := by decide
  copyMem _ _ _ _ := ()
  setHiiVariable _ _ _ _ := (.success, ())

def sampleDatabase : Database Unit := ⟨fun _ => 8, ()⟩

theorem sampleDatabase_sizes : SizesOk sampleBuild sampleDatabase := fun _ => show 8 ≤ 16 by decide

/-- The first callback registers a third one, sets token 3 and unregisters the second one. -/
def nestedEvents : List Event :=
  [.register 1 none 100, .register 1 none 101, .register 3 none 200, .setWorker 1 0 4 false, .register 1 none 102,
    .setWorker 3 0 6 true, .callbackReturns, .unregister 1 none 101, .callbackReturns, .callbackReturns,
    .setWorker 3 0 7 true, .exSetWorker 77 9 0 4 false]

theorem callbacks_called_once_sample :
    ∃ s, nestedEvents.foldlM (step sampleBuild) (init sampleDatabase) = some s ∧ CalledOnce s ∧
      s.returned.map (fun r => (r.activation.set.tokenNumber, r.activation.entries.map (·.callbackFn))) =
        [(2, []), (3, []), (1, [102, 100]), (3, [200])] := by
  obtain ⟨s, hs, hreturned⟩ := Option.map_eq_some_iff.mp
    (show (nestedEvents.foldlM (fun s e => if StaysSafe sampleBuild s e then step sampleBuild s e else none)
        (init sampleDatabase)).map
        (fun s => s.returned.map (fun r => (r.activation.set.tokenNumber, r.activation.entries.map (·.callbackFn)))) =
      some [(2, []), (3, []), (1, [102, 100]), (3, [200])] by decide +kernel)
  obtain ⟨hrun, hsafe⟩ := Run.of_guarded hs
  exact ⟨s, hrun, callbacks_called_once sampleBuild sampleDatabase sampleDatabase_sizes _ _ hsafe, hreturned⟩

/-- A set in a token space: the callback is called for each of the two walks, and for a set of the wrong size. -/
def exEvents : List Event :=
  [.register 77 (some 9) 100, .exSetWorker 77 9 0 4 false, .callbackReturns, .callbackReturns,
    .exSetWorker 77 9 0 3 false, .callbackReturns]

/-- A callback that unregisters itself. -/
def selfEvents : List Event := [.register 1 none 100, .setWorker 1 0 4 false, .unregister 1 none 100, .callbackReturns]

theorem callbacks_repeated_and_freed :
    (∃ s, exEvents.foldlM (step sampleBuild) (init sampleDatabase) = some s ∧
      s.returned.map (fun r => (r.outcome, r.activation.called.map (·.guid))) =
        [(.sizeRejected, [some 9]), (.status .success, [none, some 9])] ∧
      ¬CalledOnce s) ∧
    ∃ s, selfEvents.foldlM (step sampleBuild) (init sampleDatabase) = some s ∧ s.touchedFreed = true ∧
      ¬CalledOnce s := by
  constructor
  · obtain ⟨s, hs, hreturned⟩ := Option.map_eq_some_iff.mp
      (show (exEvents.foldlM (step sampleBuild) (init sampleDatabase)).map
        (fun s => s.returned.map (fun r => (r.outcome, r.activation.called.map (·.guid)))) =
        some [(.sizeRejected, [some 9]), (.status .success, [none, some 9])] by decide +kernel)
    refine ⟨s, hs, hreturned, fun hcorrect => ?_⟩
    obtain ⟨r, rest, hr, hfirst, -⟩ := List.map_eq_cons_iff.mp hreturned
    have hrejected := (hcorrect.returned r (hr ▸ List.mem_cons_self)).rejected (congrArg Prod.fst hfirst)
    have hcalled := congrArg Prod.snd hfirst
    rw [hrejected] at hcalled
    cases hcalled
  · obtain ⟨s, hs, htouched⟩ := Option.map_eq_some_iff.mp
      (show (selfEvents.foldlM (step sampleBuild) (init sampleDatabase)).map (·.touchedFreed) = some true by
        decide +kernel)
    exact ⟨s, hs, htouched, fun hcorrect => Bool.noConfusion (htouched.symm.trans hcorrect.intact)⟩

end Udk.Pcd
