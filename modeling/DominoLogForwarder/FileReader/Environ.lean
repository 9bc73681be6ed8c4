/-
The rules of the system calls of a `FileReader` and of its state file, while the rest of the system goes on in some way.

An `Env` says how the files and the kernel can go on: what other programs may do, and whether the process can be killed.
The rules hold in any environment, whatever the system calls answer. What a call reads is read at some point of it, so
the rules name the files at that point.

`Reliable`: the calls on which the position depends do not fail. These are the calls of `SaveState` and `LoadState`, and
the one which reads the start of the file in `ResolveStart`.
-/
import DominoLogForwarder.FileReader.BufferSpec

namespace DominoLogForwarder.FileReader

open CrashProg Lines FrM
open Wal (File)

namespace Disk

theorem applyAll_state (changes : List Change) (d : Disk) :
    (d.applyAll changes).state = d.state ∧ (d.applyAll changes).temp = d.temp := by
  induction changes generalizing d with
  | nil => exact ⟨rfl, rfl⟩
  | cons ch changes ih =>
    obtain ⟨hs, ht⟩ := ih (d.apply ch)
    exact ⟨hs.trans (by cases ch <;> rfl), ht.trans (by cases ch <;> rfl)⟩

end Disk

/-- the calls on which the position depends -/
def sureCalls : List Call :=
  [.openState, .preadState, .preadResolve, .openTemp, .writeTemp, .fsyncTemp, .closeTemp, .rename]

def Kernel.Reliable (k : Kernel) : Prop := ∀ c ∈ sureCalls, ∀ code, Fault.fail code ∉ k.oracle c

/-- answers which were used up do not come back -/
theorem Kernel.Reliable.mono {k k' : Kernel} (hr : k.Reliable) (h : ∀ c, k'.oracle c <:+ k.oracle c) : k'.Reliable :=
  fun c hc code hin => hr c hc code ((h c).subset hin)

/-! ## A call and a message -/

section Calls

variable {C : Sys → Prop} {s : Sys} {c : Call}

theorem wp_setReader {Q : Unit → Sys → Prop} (f : Reader → Reader) :
    wp (setReader f) Q C s = Q () ⟨s.disk, f s.reader, s.log, s.kern⟩ := rfl

theorem wp_setDisk {Q : Unit → Sys → Prop} (f : Disk → Disk) :
    wp (setDisk f) Q C s = Q () ⟨f s.disk, s.reader, s.log, s.kern⟩ := rfl

theorem wp_note {Q : Unit → Sys → Prop} (m : Message) (h : ∀ l, Q () ⟨s.disk, s.reader, l, s.kern⟩) :
    wp (note m) Q C s := h _

/-- what a system call leaves behind: the others have made their next changes, and an answer is used up -/
structure Passed (d : Disk) (k : Kernel) (d' : Disk) (k' : Kernel) : Prop where
  disk : d' = d.applyAll (k.others.headD [])
  others : k'.others = k.others.tail
  calls : ∀ c, k'.oracle c <:+ k.oracle c
  alive : k.crashIn = none → k'.crashIn = none

/-- the reader's own files are as they were -/
structure Untouched (d d' : Disk) : Prop where
  state : d'.state = d.state
  temp : d'.temp = d.temp

theorem Passed.untouched {d d' : Disk} {k k' : Kernel} (h : Passed d k d' k') : Untouched d d' := by
  obtain ⟨hstate, htemp⟩ := Disk.applyAll_state (k.others.headD []) d
  exact ⟨h.disk ▸ hstate, h.disk ▸ htemp⟩

/-- a system call, whatever the others do -/
theorem wp_syscall_passed {Q : Fault → Sys → Prop}
    (h : ∀ f d k, Passed s.disk s.kern d k → (f = .ok ∨ f ∈ s.kern.oracle c) → Q f ⟨d, s.reader, s.log, k⟩)
    (hc : s.kern.crashIn ≠ none → C s) : wp (syscall c) Q C s := by
  have hdone : ∀ n, (s.kern.crashIn = none → n = none) → Q ((s.kern.oracle c).headD .ok)
      ⟨s.disk.applyAll (s.kern.others.headD []), s.reader, s.log,
        ⟨Function.update s.kern.oracle c (s.kern.oracle c).tail, s.kern.others.tail, n⟩⟩ := by
    intro n hn
    refine h _ _ _ ⟨rfl, rfl, fun c' => ?_, hn⟩ ?_
    · by_cases hcc : c' = c
      · subst hcc
        simp only [Function.update_self]
        exact List.tail_suffix _
      · simp only [Function.update_of_ne hcc]
        exact List.suffix_refl _
    · cases ho : s.kern.oracle c with
      | nil => exact Or.inl rfl
      | cons f fs => exact Or.inr List.mem_cons_self
  unfold wp syscall
  cases hcr : s.kern.crashIn with
  | none => exact hdone _ fun _ => rfl
  | some n =>
    cases n with
    | zero => exact hc (by rw [hcr]; simp)
    | succ n => exact hdone _ fun h0 => by rw [hcr] at h0; cases h0

end Calls

/-- a message of a file which starts again -/
def Message.isReset : Message → Bool
  | .truncated => true
  | .writtenAgain => true
  | _ => false

/-- how often a file started again -/
def resets (log : List Message) : ℕ := log.countP Message.isReset

theorem resets_note {m : Message} (hm : m.isReset = false) (log : List Message) : resets (log ++ [m]) = resets log := by
  unfold resets
  rw [List.countP_append, List.countP_singleton, hm]
  rfl

theorem resets_reset {m : Message} (hm : m.isReset = true) (log : List Message) :
    resets (log ++ [m]) = resets log + 1 := by
  unfold resets
  rw [List.countP_append, List.countP_singleton, hm]
  rfl

section Notes

variable {C : Sys → Prop} {s : Sys}

theorem wp_note_eq {Q : Unit → Sys → Prop} (m : Message) :
    wp (note m) Q C s = Q () ⟨s.disk, s.reader, s.log ++ [m], s.kern⟩ := rfl

/-- any message but the one of a file which starts again -/
theorem wp_noteOther {Q : Unit → Sys → Prop} {m : Message} (hm : m.isReset = false)
    (h : ∀ l, resets l = resets s.log → Q () ⟨s.disk, s.reader, l, s.kern⟩) : wp (note m) Q C s :=
  h _ (resets_note hm s.log)

end Notes

theorem readField_isReset {fields : Fields} {line : Bytes} {m : Message} (h : readField fields line = .error m) :
    m.isReset = false := by
  unfold readField at h
  cases hf : find eqSign line with
  | none =>
    rw [hf] at h
    cases h
  | some n =>
    rw [hf] at h
    dsimp only at h
    split_ifs at h
    · cases h
      rfl
    · unfold setField at h
      split_ifs at h
      cases h
      rfl

theorem checkFields_isReset {fields : Fields} {m : Message}
    (h : checkFields fields = .error m) : m.isReset = false := by
  unfold checkFields at h
  split at h
  · split_ifs at h
    cases h
    rfl
  · cases h
    rfl

theorem foldlM_readField_isReset {lines : List Bytes} {fields : Fields} {m : Message}
    (h : lines.foldlM readField fields = .error m) : m.isReset = false := by
  induction lines generalizing fields with
  | nil => cases h
  | cons line lines ih =>
    rw [List.foldlM_cons] at h
    cases hr : readField fields line with
    | error m' =>
      rw [hr] at h
      cases h
      exact readField_isReset hr
    | ok fields' =>
      rw [hr] at h
      exact ih h

theorem parseState_isReset {bs : Bytes} {m : Message} (h : parseState bs = .error m) : m.isReset = false := by
  unfold parseState at h
  cases hr : (tokens bs).foldlM readField {} with
  | error m' =>
    rw [hr] at h
    cases h
    exact foldlM_readField_isReset hr
  | ok fields =>
    rw [hr] at h
    exact checkFields_isReset h

/-! ## The environment -/

/-- how the files and the kernel go on -/
structure Env where
  /-- `d` and `k` can become `d'` and `k'` -/
  Goes : Disk → Kernel → Disk → Kernel → Prop
  /-- the process can be killed -/
  Killable : Prop
  trans : ∀ {d k d' k' d'' k''}, Goes d k d' k' → Goes d' k' d'' k'' → Goes d k d'' k''
  /-- what was reached can go on -/
  right : ∀ {d k d' k'}, Goes d k d' k' → Goes d' k' d' k'
  /-- the reader writes its own files -/
  setState : ∀ {d k d' k'} (state temp : Option Bytes), Goes d k d' k' →
    Goes d k { d' with state := state, temp := temp } k'
  calls : ∀ {d k d' k'}, Goes d k d' k' → ∀ c, k'.oracle c <:+ k.oracle c
  syscall : ∀ {s : Sys} {c : Call} {Q : Fault → Sys → Prop} {C : Sys → Prop}, Goes s.disk s.kern s.disk s.kern →
    (Killable → C s) → (∀ f d k, Goes s.disk s.kern d k → Untouched s.disk d →
      (f = .ok ∨ f ∈ s.kern.oracle c) → Q f ⟨d, s.reader, s.log, k⟩) → wp (FrM.syscall c) Q C s

namespace Env

variable {E : Env} {C : Sys → Prop} {s : Sys} {c : Call} {id : FileId}

/-- a call can start in `s` -/
def Ready (E : Env) (s : Sys) : Prop := E.Goes s.disk s.kern s.disk s.kern

theorem reliable {d d' : Disk} {k k' : Kernel} (h : E.Goes d k d' k') (hr : k.Reliable) : k'.Reliable :=
  hr.mono (E.calls h)

/-! ## System calls -/

theorem attempt {Q : Except ℕ Unit → Sys → Prop} (hs : E.Ready s) (hc : E.Killable → C s)
    (h : ∀ x d k, E.Goes s.disk s.kern d k → Untouched s.disk d →
      (∀ code, x = .error code → Fault.fail code ∈ s.kern.oracle c) → Q x ⟨d, s.reader, s.log, k⟩) :
    wp (FrM.attempt c) Q C s := by
  unfold FrM.attempt
  rw [wp_bind]
  refine E.syscall hs hc fun f d k hgo hown hf => ?_
  cases f with
  | ok => exact h _ d k hgo hown fun code h0 => by cases h0
  | short n => exact h _ d k hgo hown fun code h0 => by cases h0
  | fail code =>
    refine h _ d k hgo hown fun code' h0 => ?_
    cases h0
    simpa using hf

/-- the path led to a node at some point, or the call reports why not -/
theorem openPath {Q : Except ℕ Node → Sys → Prop} (hs : E.Ready s) (hc : E.Killable → C s)
    (h : ∀ node d k, E.Goes s.disk s.kern d k → d.state = s.disk.state → d.path = some node →
      Q (.ok node) ⟨d, s.reader, s.log, k⟩)
    (hfail : ∀ code d k, E.Goes s.disk s.kern d k → d.state = s.disk.state →
      (Fault.fail code ∈ s.kern.oracle .openPath ∨ d.path = none) → Q (.error code) ⟨d, s.reader, s.log, k⟩) :
    wp FrM.openPath Q C s := by
  unfold FrM.openPath
  rw [wp_bind]
  refine E.syscall hs hc fun f d k hgo hown hf => ?_
  have hgood : wp FrM.nodeThere Q C ⟨d, s.reader, s.log, k⟩ := by
    unfold FrM.nodeThere
    rw [wp_bind, wp_get]
    cases hp : d.path with
    | none => exact hfail _ d k hgo hown.state (Or.inr hp)
    | some node => exact h node d k hgo hown.state hp
  cases f with
  | ok => exact hgood
  | short n => exact hgood
  | fail code => exact hfail code d k hgo hown.state (Or.inl (by simpa using hf))

theorem fstat {Q : Except ℕ ℕ → Sys → Prop} (hs : E.Ready s) (hc : E.Killable → C s)
    (h : ∀ d k, E.Goes s.disk s.kern d k → d.state = s.disk.state →
      Q (.ok (d.files id).size) ⟨d, s.reader, s.log, k⟩)
    (hfail : ∀ code d k, E.Goes s.disk s.kern d k → d.state = s.disk.state → Fault.fail code ∈ s.kern.oracle c →
      Q (.error code) ⟨d, s.reader, s.log, k⟩) : wp (FrM.fstat c id) Q C s := by
  unfold FrM.fstat
  rw [wp_bind]
  refine E.syscall hs hc fun f d k hgo hown hf => ?_
  cases f with
  | ok => exact h d k hgo hown.state
  | short n => exact h d k hgo hown.state
  | fail code => exact hfail code d k hgo hown.state (by simpa using hf)

theorem statPath {Q : Option Node → Sys → Prop} (hs : E.Ready s) (hc : E.Killable → C s)
    (h : ∀ node d k, E.Goes s.disk s.kern d k → d.state = s.disk.state → (node = none ∨ node = d.path) →
      Q node ⟨d, s.reader, s.log, k⟩) : wp FrM.statPath Q C s := by
  unfold FrM.statPath
  rw [wp_bind]
  refine E.syscall hs hc fun f d k hgo hown _ => ?_
  cases f with
  | ok => exact h _ d k hgo hown.state (Or.inr rfl)
  | short n => exact h _ d k hgo hown.state (Or.inr rfl)
  | fail code => exact h none d k hgo hown.state (Or.inl rfl)

/-- every read but the one of a chunk returns all there is -/
theorem readAt {Q : Except ℕ Bytes → Sys → Prop} {len offset : ℕ} (hs : E.Ready s) (hc : E.Killable → C s)
    (hcall : c ≠ .preadFill)
    (h : ∀ d k, E.Goes s.disk s.kern d k → d.state = s.disk.state →
      Q (.ok (((d.files id).bytes.drop offset).take len)) ⟨d, s.reader, s.log, k⟩)
    (hfail : ∀ code d k, E.Goes s.disk s.kern d k → d.state = s.disk.state → Fault.fail code ∈ s.kern.oracle c →
      Q (.error code) ⟨d, s.reader, s.log, k⟩) : wp (FrM.readAt c id len offset) Q C s := by
  unfold FrM.readAt
  rw [wp_bind]
  refine E.syscall hs hc fun f d k hgo hown hf => ?_
  rw [wp_bind, wp_get]
  cases f with
  | ok => exact h d k hgo hown.state
  | short n =>
    simp only [hcall, if_false]
    exact h d k hgo hown.state
  | fail code => exact hfail code d k hgo hown.state (by simpa using hf)

theorem take_succ_eq_nil {n : ℕ} {bs : Bytes} (h : bs.take (n + 1) = []) : bs = [] := by
  cases bs with
  | nil => rfl
  | cons b bs => cases h

/-- a chunk is empty only at the end of the file -/
theorem readChunk {Q : Except ℕ Bytes → Sys → Prop} {offset : ℕ} (hs : E.Ready s) (hc : E.Killable → C s)
    (h : ∀ chunk d k, E.Goes s.disk s.kern d k → d.state = s.disk.state → chunk <+: (d.files id).bytes.drop offset →
      (chunk = [] → (d.files id).bytes.drop offset = []) → Q (.ok chunk) ⟨d, s.reader, s.log, k⟩)
    (hfail : ∀ code d k, E.Goes s.disk s.kern d k → d.state = s.disk.state →
      Fault.fail code ∈ s.kern.oracle .preadFill → Q (.error code) ⟨d, s.reader, s.log, k⟩) :
    wp (FrM.readAt .preadFill id chunkSize offset) Q C s := by
  unfold FrM.readAt
  rw [wp_bind]
  refine E.syscall hs hc fun f d k hgo hown hf => ?_
  rw [wp_bind, wp_get]
  have hchunk : ((d.files id).bytes.drop offset).take chunkSize <+: (d.files id).bytes.drop offset :=
    List.take_prefix _ _
  cases f with
  | ok => exact h _ d k hgo hown.state hchunk (take_succ_eq_nil (n := 65535))
  | short n =>
    simp only [if_true]
    apply h _ d k hgo hown.state ((List.take_prefix _ _).trans hchunk)
    exact fun h0 => take_succ_eq_nil (n := 65535) (take_succ_eq_nil h0)
  | fail code => exact hfail code d k hgo hown.state (by simpa using hf)

/-! ## The state file -/

/-- `C` holds whenever the process is killed before the state file is replaced -/
def Killed (E : Env) (C : Sys → Prop) (s : Sys) : Prop :=
  E.Killable → ∀ d k, E.Goes s.disk s.kern d k → d.state = s.disk.state → C ⟨d, s.reader, s.log, k⟩

theorem Killed.now (hc : E.Killed C s) (hs : E.Ready s) : E.Killable → C s := fun hk => hc hk _ _ hs rfl

theorem Killed.later {d : Disk} {k : Kernel} (hc : E.Killed C s) (hgo : E.Goes s.disk s.kern d k)
    (hst : d.state = s.disk.state) : E.Killed C ⟨d, s.reader, s.log, k⟩ :=
  fun hk d' k' hgo' hst' => hc hk d' k' (E.trans hgo hgo') (hst'.trans hst)

/-- all bytes are written, or the call reports an error -/
theorem writeAll {Q : Except ℕ Unit → Sys → Prop} {fuel : ℕ} {bs : Bytes} (hs : E.Ready s) (hc : E.Killed C s)
    (h : ∀ x d k, E.Goes s.disk s.kern d k → d.state = s.disk.state →
      (x = .ok () → ∀ text, s.disk.temp = some text → d.temp = some (text ++ bs)) →
      (bs.length ≤ fuel → s.kern.Reliable → x = .ok ()) → Q x ⟨d, s.reader, s.log, k⟩) :
    wp (FrM.writeAll fuel bs) Q C s := by
  induction fuel generalizing bs s with
  | zero =>
    cases bs with
    | nil => exact h _ _ _ hs rfl (fun _ text htemp => by rw [htemp, List.append_nil]) fun _ _ => rfl
    | cons b bs => exact h _ _ _ hs rfl (fun h0 => by cases h0) fun hfuel => absurd hfuel (Nat.not_succ_le_zero _)
  | succ fuel ih =>
    cases bs with
    | nil => exact h _ _ _ hs rfl (fun _ text htemp => by rw [htemp, List.append_nil]) fun _ _ => rfl
    | cons b bs =>
      unfold FrM.writeAll
      rw [wp_bind]
      refine E.syscall hs (hc.now hs) fun f d k hgo hown hf => ?_
      cases f with
      | ok =>
        refine h _ _ _ (E.setState _ _ hgo) hown.state (fun _ text htemp => ?_) fun _ _ => rfl
        have htemp' : d.temp = some text := hown.temp.trans htemp
        exact congrArg (Option.map (· ++ (b :: bs))) htemp'
      | fail code =>
        refine h _ _ _ hgo hown.state (fun h0 => by cases h0) fun _ hrel => ?_
        exact absurd (by simpa using hf) (hrel .writeTemp (by decide) code)
      | short n =>
        rw [wp_bind, wp_setDisk]
        have hgo' := E.setState d.state (d.temp.map (· ++ (b :: bs).take (n + 1))) hgo
        refine ih (E.right hgo') (hc.later hgo' hown.state) fun x d' k' hgo'' hst hwritten hsure => ?_
        refine h x d' k' (E.trans hgo' hgo'') (hst.trans hown.state) (fun hok text htemp => ?_) fun hfuel hrel => ?_
        · have htaken : d.temp.map (· ++ (b :: bs).take (n + 1)) = some (text ++ (b :: bs).take (n + 1)) := by
            rw [hown.temp, htemp]
            rfl
          rw [hwritten hok _ htaken, List.append_assoc, List.take_append_drop]
        · apply hsure _ (reliable hgo hrel)
          rw [List.length_cons] at hfuel
          rw [List.drop_succ_cons, List.length_drop]
          omega

/-- the error is reported -/
theorem unlinkTemp {Q : Except ℕ Unit → Sys → Prop} {code : ℕ} (hs : E.Ready s) (hc : E.Killable → C s)
    (h : ∀ d k, E.Goes s.disk s.kern d k → Q (.error code) ⟨d, s.reader, s.log, k⟩) :
    wp (FrM.unlinkTemp code) Q C s := by
  unfold FrM.unlinkTemp
  rw [wp_bind]
  refine attempt hs hc fun x d k hgo _ _ => ?_
  rw [wp_bind, wp_setDisk]
  exact h _ k (E.setState _ _ hgo)

/-- the state file is replaced, or the call reports an error. Until then it is the old one -/
theorem replaceState {Q : Except ℕ Unit → Sys → Prop} {text : Bytes} (hs : E.Ready s) (hc : E.Killed C s)
    (h : ∀ x d k, E.Goes s.disk s.kern d k → (x = .ok () → d.state = some text) → (s.kern.Reliable → x = .ok ()) →
      Q x ⟨d, s.reader, s.log, k⟩) : wp (FrM.replaceState text) Q C s := by
  have hunlink : ∀ code d k, E.Goes s.disk s.kern d k → d.state = s.disk.state → ¬ s.kern.Reliable →
      wp (FrM.unlinkTemp code) Q C ⟨d, s.reader, s.log, k⟩ := by
    intro code d k hgo hst hfail
    refine unlinkTemp (E.right hgo) ((hc.later hgo hst).now (E.right hgo)) fun d' k' hgo' => ?_
    exact h _ d' k' (E.trans hgo hgo') (fun h0 => by cases h0) fun hrel => absurd hrel hfail
  -- the temporary file is closed and removed
  have hclose : ∀ code d k, E.Goes s.disk s.kern d k → d.state = s.disk.state → ¬ s.kern.Reliable → wp (do
      let _ ← FrM.attempt .closeTemp
      FrM.unlinkTemp code) Q C ⟨d, s.reader, s.log, k⟩ := by
    intro code d k hgo hst hfail
    rw [wp_bind]
    refine attempt (E.right hgo) ((hc.later hgo hst).now (E.right hgo)) fun x d' k' hgo' hown _ => ?_
    exact hunlink code d' k' (E.trans hgo hgo') (hown.state.trans hst) hfail
  have hfails : ∀ {c : Call} {code : ℕ} {d : Disk} {k : Kernel}, c ∈ sureCalls → E.Goes s.disk s.kern d k →
      Fault.fail code ∈ k.oracle c → ¬ s.kern.Reliable :=
    fun hc hgo hf hrel => reliable hgo hrel _ hc _ hf
  unfold FrM.replaceState
  rw [wp_bind]
  refine attempt hs (hc.now hs) fun x d₁ k₁ h₁ hown₁ hf₁ => ?_
  cases x with
  | error code =>
    refine h _ d₁ k₁ h₁ (fun h0 => by cases h0) fun hrel => ?_
    exact absurd hrel (hfails (by decide) hs (hf₁ code rfl))
  | ok _ =>
    have h₁ := E.setState d₁.state (some []) h₁
    rw [wp_bind, wp_setDisk, wp_bind]
    refine writeAll (E.right h₁) (hc.later h₁ hown₁.state) fun x d₂ k₂ h₂ hst₂ hwritten hsure => ?_
    have h₂ := E.trans h₁ h₂
    have hst₂ : d₂.state = s.disk.state := hst₂.trans hown₁.state
    cases x with
    | error code =>
      refine hclose code d₂ k₂ h₂ hst₂ fun hrel => ?_
      cases hsure le_rfl (reliable h₁ hrel)
    | ok _ =>
      rw [wp_bind]
      refine attempt (E.right h₂) ((hc.later h₂ hst₂).now (E.right h₂)) fun x d₃ k₃ h₃ hown₃ hf₃ => ?_
      have h₃ := E.trans h₂ h₃
      have hst₃ := hown₃.state.trans hst₂
      cases x with
      | error code => exact hclose code d₃ k₃ h₃ hst₃ (hfails (by decide) h₂ (hf₃ code rfl))
      | ok _ =>
        rw [wp_bind]
        refine attempt (E.right h₃) ((hc.later h₃ hst₃).now (E.right h₃)) fun x d₄ k₄ h₄ hown₄ hf₄ => ?_
        have h₄ := E.trans h₃ h₄
        have hst₄ := hown₄.state.trans hst₃
        cases x with
        | error code => exact hunlink code d₄ k₄ h₄ hst₄ (hfails (by decide) h₃ (hf₄ code rfl))
        | ok _ =>
          rw [wp_bind]
          refine attempt (E.right h₄) ((hc.later h₄ hst₄).now (E.right h₄)) fun x d₅ k₅ h₅ hown₅ hf₅ => ?_
          have h₅ := E.trans h₄ h₅
          cases x with
          | error code =>
            exact hunlink code d₅ k₅ h₅ (hown₅.state.trans hst₄) (hfails (by decide) h₄ (hf₅ code rfl))
          | ok _ =>
            have htemp : d₅.temp = some text :=
              calc d₅.temp = d₄.temp := hown₅.temp
                _ = d₃.temp := hown₄.temp
                _ = d₂.temp := hown₃.temp
                _ = some text := hwritten rfl [] rfl
            exact h _ _ k₅ (E.setState d₅.temp none h₅) (fun _ => htemp) fun _ => rfl

/-- what `SaveState` leaves behind: the state file is replaced, or the call failed -/
structure Saves (s : Sys) (b failed : Bool) (d : Disk) (l : List Message) : Prop where
  resets : resets l = resets s.log
  done : b = true → failed = false ∧ l = s.log ∧ d.state = some (stateText s.reader.saved)
  sure : s.kern.Reliable → b = true

/-- `SaveState` remembers whether it failed -/
theorem saveState {Q : Bool → Sys → Prop} (hs : E.Ready s) (hc : E.Killed C s)
    (h : ∀ b failed d k l, E.Goes s.disk s.kern d k → Saves s b failed d l →
      Q b ⟨d, { s.reader with saveFailed := failed }, l, k⟩) : wp FrM.saveState Q C s := by
  unfold FrM.saveState
  rw [wp_bind, wp_get, wp_bind]
  refine replaceState hs hc fun x d k hgo hreplaced hsure => ?_
  cases x with
  | ok _ => exact h true false d k s.log hgo ⟨rfl, fun _ => ⟨rfl, rfl, hreplaced rfl⟩, fun _ => rfl⟩
  | error code =>
    have hfails : ∀ failed l, FileReader.resets l = FileReader.resets s.log → Saves s false failed d l := by
      refine fun failed l hl => ⟨hl, (fun h0 => by cases h0), fun hrel => ?_⟩
      cases hsure hrel
    by_cases hfailed : s.reader.saveFailed = false
    · dsimp only
      rw [if_pos hfailed, wp_bind, wp_setReader, wp_bind]
      refine wp_noteOther rfl fun l hl => ?_
      exact h false true d k l hgo (hfails true l hl)
    · dsimp only
      rw [if_neg hfailed]
      exact h false s.reader.saveFailed d k s.log hgo (hfails _ _ rfl)

/-- what an answer of `LoadState` says: a position is the one which the state file gives, and without a failure such a
position is returned -/
structure Loaded (s : Sys) (x : StateResult) (l : List Message) : Prop where
  resets : resets l = resets s.log
  silent : x ≠ .invalid → l = s.log
  given : ∀ saved, x = .ok saved →
    ∃ text, s.disk.state = some text ∧ text.length ≤ stateMax ∧ parseState text = .ok saved
  failed : (∀ saved, x ≠ .ok saved) →
    ∀ text saved, s.disk.state = some text → text.length ≤ stateMax → parseState text = .ok saved →
      ∃ code, Fault.fail code ∈ s.kern.oracle .openState ∨ Fault.fail code ∈ s.kern.oracle .preadState
  absent : s.disk.state = none → x ≠ .none → ∃ code, Fault.fail code ∈ s.kern.oracle .openState

/-- without a state file `LoadState` has no position -/
theorem Loaded.none {x : StateResult} {l : List Message} (h : Loaded s x l) (hnone : s.disk.state = none) :
    x = .none ∨ x = .invalid := by
  cases x with
  | none => exact Or.inl rfl
  | invalid => exact Or.inr rfl
  | ok saved =>
    obtain ⟨text, htext, -⟩ := h.given saved rfl
    rw [hnone] at htext
    cases htext

/-- a position which is there is returned, as long as the two calls do not fail -/
theorem Loaded.eq_ok {x : StateResult} {l : List Message} {text : Bytes} {saved : SavedState} (h : Loaded s x l)
    (htext : s.disk.state = some text) (hlen : text.length ≤ stateMax) (hparse : parseState text = .ok saved)
    (hcalls : ∀ code, Fault.fail code ∉ s.kern.oracle .openState ∧ Fault.fail code ∉ s.kern.oracle .preadState) :
    x = .ok saved := by
  by_cases hgiven : ∃ saved', x = .ok saved'
  · obtain ⟨saved', rfl⟩ := hgiven
    obtain ⟨text', htext', -, hparse'⟩ := h.given saved' rfl
    rw [htext, Option.some.injEq] at htext'
    rw [← htext', hparse, Except.ok.injEq] at hparse'
    rw [hparse']
  · obtain ⟨code, hf | hf⟩ := h.failed (fun saved' h0 => hgiven ⟨saved', h0⟩) _ _ htext hlen hparse
    · exact absurd hf (hcalls code).1
    · exact absurd hf (hcalls code).2

theorem openState {Q : Except ℕ Bytes → Sys → Prop} (hs : E.Ready s) (hc : E.Killable → C s)
    (h : ∀ text d k, E.Goes s.disk s.kern d k → d.state = s.disk.state → s.disk.state = some text →
      Q (.ok text) ⟨d, s.reader, s.log, k⟩)
    (hfail : ∀ code d k, E.Goes s.disk s.kern d k → d.state = s.disk.state →
      (s.disk.state = none ∧ code = noEntry ∨ Fault.fail code ∈ s.kern.oracle .openState) →
      Q (.error code) ⟨d, s.reader, s.log, k⟩) : wp FrM.openState Q C s := by
  unfold FrM.openState
  rw [wp_bind]
  refine E.syscall hs hc fun f d k hgo hown hf => ?_
  have hgood : wp FrM.textThere Q C ⟨d, s.reader, s.log, k⟩ := by
    unfold FrM.textThere
    rw [wp_bind, wp_get]
    cases hst : d.state with
    | none => exact hfail _ d k hgo hown.state (Or.inl ⟨hown.state.symm.trans hst, rfl⟩)
    | some text => exact h text d k hgo hown.state (hown.state.symm.trans hst)
  cases f with
  | ok => exact hgood
  | short n => exact hgood
  | fail code => exact hfail code d k hgo hown.state (Or.inr (by simpa using hf))

/-- the state file is only read. Without a failure its position is returned, if it has one -/
theorem loadState {Q : StateResult → Sys → Prop} (hs : E.Ready s) (hc : E.Killed C s)
    (h : ∀ x d k l, E.Goes s.disk s.kern d k → d.state = s.disk.state → Loaded s x l → Q x ⟨d, s.reader, l, k⟩) :
    wp FrM.loadState Q C s := by
  -- no position, and a reason for it
  have hinvalid : ∀ m d k, E.Goes s.disk s.kern d k → d.state = s.disk.state → m.isReset = false →
      (∀ text saved, s.disk.state = some text → text.length ≤ stateMax → parseState text = .ok saved →
        ∃ code, Fault.fail code ∈ s.kern.oracle .openState ∨ Fault.fail code ∈ s.kern.oracle .preadState) →
      (s.disk.state = none → ∃ code, Fault.fail code ∈ s.kern.oracle .openState) → wp (do
      note m
      pure .invalid) Q C ⟨d, s.reader, s.log, k⟩ := by
    intro m d k hgo hst hm hwhy habsent
    rw [wp_bind]
    refine wp_noteOther hm fun l hl => h _ d k l hgo hst ?_
    exact ⟨hl, fun h0 => absurd rfl h0, (fun saved h0 => nomatch h0), fun _ => hwhy, fun hnone _ => habsent hnone⟩
  unfold FrM.loadState
  rw [wp_bind]
  refine openState hs (hc.now hs) (fun text d k hgo hst htext => ?_) fun code d k hgo hst hwhy => ?_
  · have hthere : ∀ {p : Prop}, s.disk.state = none → p := fun hnone => by rw [htext] at hnone; cases hnone
    dsimp only
    rw [wp_bind]
    refine attempt (E.right hgo) ((hc.later hgo hst).now (E.right hgo)) fun x d' k' hgo' hown hf => ?_
    have hgo' := E.trans hgo hgo'
    have hst' : d'.state = s.disk.state := hown.state.trans hst
    -- what is in the file is no position
    have hbad : ∀ m, m.isReset = false → (∀ saved, text.length ≤ stateMax → parseState text ≠ .ok saved) → wp (do
        note m
        pure .invalid) Q C ⟨d', s.reader, s.log, k'⟩ := by
      intro m hm hbad
      refine hinvalid m d' k' hgo' hst' hm (fun text' saved htext' hlen hparse => ?_) hthere
      rw [htext, Option.some.injEq] at htext'
      subst htext'
      exact absurd hparse (hbad saved hlen)
    cases x with
    | error code =>
      refine hinvalid _ d' k' hgo' hst' rfl (fun _ _ _ _ _ => ?_) hthere
      exact ⟨code, Or.inr ((E.calls hgo _).subset (hf code rfl))⟩
    | ok _ =>
      dsimp only
      by_cases hlong : stateMax < (text.take (stateMax + 1)).length
      · rw [if_pos hlong]
        rw [List.length_take] at hlong
        exact hbad _ rfl fun saved hlen => by omega
      · rw [if_neg hlong]
        rw [List.length_take] at hlong
        have hshort : text.length ≤ stateMax := by omega
        rw [List.take_of_length_le (hshort.trans (Nat.le_succ _))]
        cases hparse : parseState text with
        | error m => exact hbad m (parseState_isReset hparse) fun saved _ h0 => by rw [hparse] at h0; cases h0
        | ok saved =>
          apply h _ d' k' s.log hgo' hst'
          refine ⟨rfl, fun _ => rfl, ?_, fun hno => absurd rfl (hno saved), fun hnone _ => hthere hnone⟩
          rintro _ ⟨⟩
          exact ⟨text, htext, hshort, hparse⟩
  · have hwhy' : ∀ text saved, s.disk.state = some text → text.length ≤ stateMax → parseState text = .ok saved →
        ∃ code, Fault.fail code ∈ s.kern.oracle .openState ∨ Fault.fail code ∈ s.kern.oracle .preadState := by
      intro text saved htext _ _
      rcases hwhy with ⟨hnone, -⟩ | hf
      · rw [htext] at hnone
        cases hnone
      · exact ⟨code, Or.inl hf⟩
    dsimp only
    split_ifs with hcode
    · apply h _ d k s.log hgo hst
      exact ⟨rfl, fun _ => rfl, (fun saved h0 => nomatch h0), fun _ => hwhy', fun _ h0 => absurd rfl h0⟩
    · refine hinvalid _ d k hgo hst rfl hwhy' fun _ => ⟨code, hwhy.resolve_left fun h0 => hcode h0.2⟩

end Env

end DominoLogForwarder.FileReader
