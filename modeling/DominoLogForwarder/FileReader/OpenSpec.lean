/-
Opening a file, and the calls on an open file which only grows.

`Reader.On r d id`: `r` reads the file `id`, its buffer holds a piece of it, and the state file has its position.
`Resolved r d id o`: where a reader which opens the file `id` starts.
-/
import DominoLogForwarder.FileReader.CallSpec

namespace DominoLogForwarder.FileReader

open CrashProg Lines FrM
open Wal (File offMax)

variable {P : Option Node → Prop} {C : Sys → Prop} {s : Sys} {id : FileId}

/-! ## The position which was saved -/

namespace Reader

/-- `r` reads the file `id` -/
structure On (r : Reader) (d : Disk) (id : FileId) : Prop where
  fd : r.fd = some id
  file : r.file = id
  opened : r.opened = true
  firstOpen : r.firstOpen = false
  holds : r.Holds (d.files id).bytes
  saved : SavedAt d id r.committed

/-- the file which is read, and what was delivered of it, are the same -/
structure Keeps (r r' : Reader) : Prop where
  settings : r'.settings = r.settings
  generation : r'.generation = r.generation
  committed : r'.committed = r.committed

theorem Keeps.trans {r r' r'' : Reader} (h : r.Keeps r') (h' : r'.Keeps r'') : r.Keeps r'' :=
  ⟨h'.settings.trans h.settings, h'.generation.trans h.generation, h'.committed.trans h.committed⟩

theorem SameFile.keeps {r r' : Reader} (h : r.SameFile r') : r.Keeps r' := by
  unfold SameFile at h
  rw [h]
  exact ⟨rfl, rfl, rfl⟩

theorem On.mono {r : Reader} {d d' : Disk} {k k' : Kernel} (h : r.On d id) (hl : Later P d k d' k')
    (hs : d'.state = d.state) : r.On d' id :=
  ⟨h.fd, h.file, h.opened, h.firstOpen, h.holds.mono (hl.files id), h.saved.mono hl hs⟩

theorem On.sameFile {r r' : Reader} {d : Disk} (h : r.On d id) (hsame : r.SameFile r')
    (hholds : r'.Holds (d.files id).bytes) : r'.On d id := by
  have hc := hsame.keeps.committed
  unfold SameFile at hsame
  refine ⟨?_, ?_, ?_, ?_, hholds, hc ▸ h.saved⟩
  · rw [hsame]
    exact h.fd
  · rw [hsame]
    exact h.file
  · rw [hsame]
    exact h.opened
  · rw [hsame]
    exact h.firstOpen

theorem saved_fits {r : Reader} (hhead : r.head.length ≤ headMax) (hcommitted : r.committed ≤ offMax) :
    r.saved.Fits := by
  have hoff : offMax < 2 ^ 64 := by decide
  refine ⟨UInt64.toNat_lt _, UInt64.toNat_lt _, lt_of_le_of_lt hcommitted hoff, ?_, ?_, UInt64.toNat_lt _⟩
  · simp only [saved]
    split_ifs <;> omega
  · simp only [saved]
    split_ifs <;> omega

/-- what `SaveState` wrote leads back to the position -/
theorem savedAt {r : Reader} {d : Disk} (hfile : r.file = id) (hholds : r.Holds (d.files id).bytes)
    (hst : d.state = some (stateText r.saved)) : SavedAt d id r.committed := by
  have hread := hholds.read_le
  have hcom := hholds.committed_le
  have hsize : r.committed ≤ (d.files id).size := by
    unfold File.size
    omega
  have hhead := hholds.head.length_le
  have hlen : r.saved.headLen ≤ r.head.length := by
    simp only [saved]
    split_ifs <;> omega
  refine ⟨⟨r.saved, hst, saved_fits hholds.head_le (hsize.trans (d.files id).size_le), ?_, ?_, rfl,
    hlen.trans hhead, ?_⟩,
    hsize⟩
  · rw [← hfile]
    rfl
  · rw [← hfile]
    rfl
  · obtain ⟨x, hx⟩ := hholds.head
    rw [← hx, List.take_append_of_le_length hlen]
    rfl

end Reader

theorem FileId.eq_of_toNat {id' : FileId} (hdev : id.device.toNat = id'.device.toNat)
    (hino : id.inode.toNat = id'.inode.toNat) : id = id' := by
  cases id
  cases id'
  rw [FileId.mk.injEq]
  exact ⟨UInt64.toNat_inj.1 hdev, UInt64.toNat_inj.1 hino⟩

/-- the state file leads to one position -/
theorem SavedAt.unique {d : Disk} {id' : FileId} {o o' : ℕ} (h : SavedAt d id o) (h' : SavedAt d id' o') :
    id = id' ∧ o = o' := by
  obtain ⟨⟨saved, hst, hfits, hdev, hino, hoff, -, -⟩, -⟩ := h
  obtain ⟨⟨saved', hst', hfits', hdev', hino', hoff', -, -⟩, -⟩ := h'
  have heq : saved = saved' := by
    have hp := parseState_stateText hfits
    rw [Option.some.inj (hst.symm.trans hst'), parseState_stateText hfits', Except.ok.injEq] at hp
    exact hp.symm
  subst heq
  exact ⟨FileId.eq_of_toNat (hdev.symm.trans hdev') (hino.symm.trans hino'), hoff.symm.trans hoff'⟩

/-- there is no state file yet, or it leads to a position in a file -/
def Clean (d : Disk) : Prop := d.state = none ∨ ∃ id o, SavedAt d id o

theorem Clean.known {d : Disk} (h : Clean d) : KnownState d := by
  intro text htext
  rcases h with h | ⟨id, o, ⟨⟨saved, hst, hfits, -⟩, -⟩⟩
  · rw [h] at htext
    cases htext
  · exact ⟨saved, Option.some.inj (htext.symm.trans hst), hfits⟩

theorem Clean.mono {d d' : Disk} {k k' : Kernel} (h : Clean d) (hl : Later P d k d' k') (hs : d'.state = d.state) :
    Clean d' := by
  rcases h with h | ⟨id, o, h⟩
  · exact Or.inl (hs.trans h)
  · exact Or.inr ⟨id, o, h.mono hl hs⟩

/-! ## Where to start -/

/-- where the reader `r` starts in the file `id` -/
structure Resolved (r : Reader) (d : Disk) (id : FileId) (o : ℕ) : Prop where
  /-- a file which is opened later is new -/
  later : r.firstOpen = false → o = 0
  fresh : r.firstOpen = true → d.state = none → r.settings.startAtEnd = false → o = 0
  same : r.firstOpen = true → ∀ o', SavedAt d id o' → o = o'
  other : r.firstOpen = true → ∀ id' o', SavedAt d id' o' → id' ≠ id → o = 0

/-- the file with this size is open for the first time -/
theorem wp_resolveStart {Q : ℕ → Sys → Prop} {size : ℕ} (hcalm : Calm P s.disk s.kern) (hrel : s.kern.Reliable)
    (hclean : Clean s.disk) (hsize : size = (s.disk.files id).size)
    (h : ∀ o d k l, Later P s.disk s.kern d k → d.state = s.disk.state → o ≤ size →
      (s.disk.state = none → s.reader.settings.startAtEnd = false → o = 0) →
      (∀ o', SavedAt s.disk id o' → o = o') → (∀ id' o', SavedAt s.disk id' o' → id' ≠ id → o = 0) →
      Q o ⟨d, s.reader, l, k⟩)
    (hc : ∀ d k, s.kern.crashIn ≠ none → Later P s.disk s.kern d k → d.state = s.disk.state →
      C ⟨d, s.reader, s.log, k⟩) : wp (resolveStart id size) Q C s := by
  unfold resolveStart
  rw [wp_bind, wp_get, wp_bind]
  refine wp_loadState hcalm hrel hclean.known (fun d k hl hs hst => ?_) (fun saved d k hl hs hst hfits => ?_) hc
  · -- there is no state file
    have hno : ∀ id' o', ¬ SavedAt s.disk id' o' := by
      rintro id' o' ⟨⟨saved, hst', -⟩, -⟩
      rw [hst] at hst'
      cases hst'
    refine h _ d k s.log hl hs ?_ (fun _ hend => ?_) (fun o' ho' => absurd ho' (hno _ _)) fun id' o' ho' =>
      absurd ho' (hno _ _)
    · split_ifs
      · exact le_rfl
      · exact Nat.zero_le _
    · rw [hend]
      rfl
  · -- the state file leads to a position `o` in the file `id₀`
    obtain ⟨id₀, o₀, h₀⟩ : ∃ id₀ o₀, SavedAt s.disk id₀ o₀ := by
      rcases hclean with hno | hex
      · rw [hno] at hst
        cases hst
      · exact hex
    have h₀' := h₀
    obtain ⟨⟨saved', hst', hfits', hdev, hino, hoff, hlen, hhash⟩, hle⟩ := h₀
    have hsaved : saved' = saved := by
      have hp := parseState_stateText hfits
      rw [Option.some.inj (hst.symm.trans hst'), parseState_stateText hfits', Except.ok.injEq] at hp
      exact hp
    subst hsaved
    have hnone : s.disk.state = none → s.reader.settings.startAtEnd = false → (0 : ℕ) = 0 := fun _ _ => rfl
    by_cases hid : id₀ = id
    · subst hid
      have hidentity : ¬ (saved'.device ≠ id₀.device.toNat ∨ saved'.inode ≠ id₀.inode.toNat) := by
        rw [hdev, hino]
        simp
      have hfit : ¬ size < saved'.offset := by
        rw [hsize, hoff]
        exact Nat.not_lt.2 hle
      dsimp only
      rw [if_neg hidentity, if_neg hfit, wp_bind]
      refine wp_readAt hl.calm (by decide) (fun d' k' hl' hs' => ?_)
        (fun code d' k' hf _ _ => absurd hf (hl.reliable hrel _ (by decide) code))
        fun hcr => hc d k (fun h0 => hcr (hl.alive h0)) hl hs
      have hgrown := (hl.trans hl').files id₀
      obtain ⟨x, hx⟩ := hgrown
      have htake : ((d'.files id₀).bytes.drop 0).take saved'.headLen =
        (s.disk.files id₀).bytes.take saved'.headLen := by
        rw [List.drop_zero, ← hx, List.take_append_of_le_length hlen]
      have hlength : (((d'.files id₀).bytes.drop 0).take saved'.headLen).length = saved'.headLen := by
        rw [htake, List.length_take]
        exact min_eq_left hlen
      have hsame : ¬ ((((d'.files id₀).bytes.drop 0).take saved'.headLen).length ≠ saved'.headLen ∨
          (hashBytes (((d'.files id₀).bytes.drop 0).take saved'.headLen)).toNat ≠ saved'.headHash) := by
        rw [hlength, htake, hhash]
        simp
      dsimp only
      rw [if_neg hsame]
      refine h _ d' k' s.log (hl.trans hl') (hs'.trans hs) ?_ (fun hno => ?_)
        (fun o' ho' => ?_) fun id' o' ho' hne => ?_
      · rw [hoff, hsize]
        exact hle
      · rw [hst] at hno
        cases hno
      · rw [hoff]
        exact (h₀'.unique ho').2
      · exact absurd (ho'.unique h₀').1 hne
    · have hidentity : saved'.device ≠ id.device.toNat ∨ saved'.inode ≠ id.inode.toNat := by
        by_contra hcon
        simp only [ne_eq, not_or, not_not] at hcon
        exact hid (FileId.eq_of_toNat (hdev.symm.trans hcon.1) (hino.symm.trans hcon.2))
      dsimp only
      rw [if_pos hidentity, wp_bind]
      refine wp_note _ fun l => ?_
      exact h 0 d k l hl hs (Nat.zero_le _) hnone (fun o' ho' => absurd (h₀'.unique ho').1 hid) fun _ _ _ _ => rfl

/-- the reader behind `OpenFile`: it starts at `o` of the file `id`, whose first bytes are `head` -/
def Reader.started (r : Reader) (id : FileId) (o : ℕ) (head : Bytes) : Reader :=
  { r.clearBuffer with
    lastOpenError := 0
    fd := some id
    file := id
    generation := r.generation + 1
    firstOpen := false
    head := head
    bufferStart := o
    committed := o
    saveFailed := false }

theorem Reader.started_holds {r : Reader} {o : ℕ} {head c : Bytes} (ho : o ≤ c.length) (hhead : head <+: c)
    (hlen : head.length ≤ headMax) : (r.started id o head).Holds c :=
  ⟨le_rfl, List.nil_prefix, ho, List.not_mem_nil, le_rfl, hhead, hlen, le_rfl⟩

theorem wp_startFile {Q : Bool → Sys → Prop} {size : ℕ} (hcalm : Calm P s.disk s.kern) (hrel : s.kern.Reliable)
    (hclean : Clean s.disk) (hopened : s.reader.opened = true) (hsize : size = (s.disk.files id).size)
    (h : ∀ o head d k l, Later P s.disk s.kern d k → Resolved s.reader s.disk id o →
      (s.reader.started id o head).On d id → Q true ⟨d, s.reader.started id o head, l, k⟩)
    (hc : ∀ d r l k, s.kern.crashIn ≠ none → Later P s.disk s.kern d k → d.state = s.disk.state → C ⟨d, r, l, k⟩) :
    wp (startFile id size) Q C s := by
  -- what happens behind the decision where to start
  have hrest : ∀ (r : Reader) (o : ℕ) (d : Disk) (k : Kernel) (l : List Message), Later P s.disk s.kern d k →
      d.state = s.disk.state → o ≤ size → Resolved s.reader s.disk id o →
      (∀ head, { r.clearBuffer with
        head := head, bufferStart := o, committed := o, saveFailed := false } = s.reader.started id o head) →
      wp (do
        let head ← readAt .preadHead id headMax 0
        setReader fun r =>
          { r.clearBuffer with
            head := head.toOption.getD []
            bufferStart := o
            committed := o }
        let _ ← saveState
        pure true) Q C ⟨d, r, l, k⟩ := by
    intro r o d k l hl hs ho hres hr
    have hcrash : ∀ d' r' l' k', k.crashIn ≠ none → Later P d k d' k' → d'.state = d.state → C ⟨d', r', l', k'⟩ :=
      fun d' r' l' k' hcr hl' hs' => hc d' r' l' k' (fun h0 => hcr (hl.alive h0)) (hl.trans hl') (hs'.trans hs)
    -- any head which is the start of the file will do
    have hsave : ∀ head d' k', Later P d k d' k' → d'.state = d.state → head <+: (d'.files id).bytes →
        head.length ≤ headMax → wp (do
          let _ ← saveState
          pure true) Q C ⟨d', { r.clearBuffer with head := head, bufferStart := o, committed := o }, l, k'⟩ := by
      intro head d' k' hl' hs' hhead hlen
      rw [wp_bind]
      refine wp_saveState hl'.calm (hl'.reliable (hl.reliable hrel)) (fun d'' k'' hl'' hst => ?_) ?_
      · have hgrown := (hl.trans hl').files id
        have hle : o ≤ (d''.files id).bytes.length := by
          have h1 := hgrown.length_le
          have h2 : (d'.files id).bytes.length ≤ (d''.files id).bytes.length := (hl''.files id).length_le
          rw [hsize] at ho
          unfold File.size at ho
          omega
        have hstarted := hr head
        have hholds : (s.reader.started id o head).Holds (d''.files id).bytes :=
          Reader.started_holds hle (hhead.trans (hl''.files id)) hlen
        have hsaved : (s.reader.started id o head).saved =
            { r.clearBuffer with head := head, bufferStart := o, committed := o }.saved := by
          rw [← hstarted]
          rfl
        have hon : (s.reader.started id o head).On d'' id :=
          ⟨rfl, rfl, hopened, rfl, hholds, Reader.savedAt rfl hholds (by rw [hsaved]; exact hst)⟩
        have hq := h o head d'' k'' l ((hl.trans hl').trans hl'') hres hon
        rw [← hstarted] at hq
        exact hq
      · intro d'' k'' hcr hl'' hs''
        exact hcrash d'' _ l k'' (fun h0 => hcr (hl'.alive h0)) (hl'.trans hl'') (hs''.trans hs')
    rw [wp_bind]
    refine wp_readAt hl.calm (by decide) (fun d' k' hl' hs' => ?_) (fun code d' k' _ hl' hs' => ?_)
      fun hcr => hcrash _ _ _ _ hcr (.refl hl.calm) rfl
    · rw [wp_bind, wp_setReader]
      refine hsave _ d' k' hl' hs' ?_ ?_
      · rw [List.drop_zero]
        exact List.take_prefix _ _
      · rw [Except.toOption, Option.getD_some, List.length_take]
        exact min_le_left _ _
    · rw [wp_bind, wp_setReader]
      exact hsave [] d' k' hl' hs' List.nil_prefix (Nat.zero_le _)
  unfold startFile startOffset
  rw [wp_bind, wp_setReader, wp_bind, wp_bind, wp_get]
  cases hfirst : s.reader.firstOpen with
  | true =>
    simp only [if_true]
    rw [wp_bind, wp_setReader]
    refine wp_resolveStart hcalm hrel hclean hsize (fun o d k l hl hs ho hnone hsame hother => ?_) ?_
    · refine hrest _ o d k l hl hs ho ⟨fun h0 => ?_, fun _ => hnone, fun _ => hsame, fun _ => hother⟩ fun head => rfl
      rw [hfirst] at h0
      cases h0
    · intro d k hcr hl hs
      exact hc _ _ _ _ hcr hl hs
  | false =>
    simp only [Bool.false_eq_true, if_false]
    refine hrest _ 0 s.disk s.kern s.log (.refl hcalm) rfl (Nat.zero_le _) ⟨fun _ => rfl, ?_, ?_, ?_⟩ fun head => ?_
    · exact fun _ _ _ => rfl
    · intro h0
      rw [hfirst] at h0
      cases h0
    · exact fun _ _ _ _ _ => rfl
    · simp only [Reader.started, Reader.clearBuffer, hfirst]

/-- why no file was opened -/
def OpenFails (P : Option Node → Prop) (k : Kernel) : Prop :=
  (∃ code, Fault.fail code ∈ k.oracle .openPath ∨ Fault.fail code ∈ k.oracle .fstatOpen) ∨ P none ∨
    ∃ id, P (some ⟨id, false⟩)

/-- nothing was opened: the reader remembers the error, so that it is a message once -/
theorem wp_openFile {Q : Bool → Sys → Prop} (hcalm : Calm P s.disk s.kern) (hrel : s.kern.Reliable)
    (hclean : Clean s.disk) (hopened : s.reader.opened = true)
    (hno : ∀ e d k l, OpenFails P s.kern → Later P s.disk s.kern d k → d.state = s.disk.state →
      Q false ⟨d, { s.reader with lastOpenError := e }, l, k⟩)
    (hyes : ∀ id o head d₀ k₀ d k l, Later P s.disk s.kern d₀ k₀ → d₀.state = s.disk.state → Later P d₀ k₀ d k →
      P (some ⟨id, true⟩) → Resolved s.reader d₀ id o → (s.reader.started id o head).On d id →
      Q true ⟨d, s.reader.started id o head, l, k⟩)
    (hc : ∀ d r l k, s.kern.crashIn ≠ none → Later P s.disk s.kern d k → d.state = s.disk.state → C ⟨d, r, l, k⟩) :
    wp openFile Q C s := by
  unfold openFile
  rw [wp_bind]
  refine wp_openPath hcalm (fun node d k hl hs hnode => ?_) (fun code d k hwhy hl hs => ?_)
    fun hcr => hc _ _ _ _ hcr (.refl hcalm) rfl
  · dsimp only
    rw [wp_bind]
    refine wp_fstat hl.calm (fun d' k' hl' hs' => ?_) (fun code d' k' hf hl' hs' => ?_)
      fun hcr => hc _ _ _ _ (fun h0 => hcr (hl.alive h0)) hl hs
    · have hl₂ := hl.trans hl'
      have hs₂ := hs'.trans hs
      obtain ⟨id, regular⟩ := node
      dsimp only
      cases regular with
      | false =>
        rw [if_pos rfl, wp_bind, wp_get]
        by_cases herr : s.reader.lastOpenError ≠ isDirectory
        · rw [if_pos herr, wp_bind]
          refine wp_note _ fun l => ?_
          rw [wp_bind, wp_setReader, wp_pure]
          exact hno _ d' k' l (Or.inr (Or.inr ⟨id, hnode⟩)) hl₂ hs₂
        · rw [if_neg herr, wp_bind, wp_setReader, wp_pure]
          exact hno _ d' k' _ (Or.inr (Or.inr ⟨id, hnode⟩)) hl₂ hs₂
      | true =>
        rw [if_neg (by simp)]
        refine wp_startFile hl₂.calm (hl₂.reliable hrel) (hclean.mono hl₂ hs₂) hopened rfl ?_ ?_
        · intro o head d'' k'' l hl'' hres hon
          exact hyes id o head d' k' d'' k'' l hl₂ hs₂ hl'' hnode hres hon
        · intro d'' r l k'' hcr hl'' hs''
          exact hc _ _ _ _ (fun h0 => hcr (hl₂.alive h0)) (hl₂.trans hl'') (hs''.trans hs₂)
    · rw [wp_bind]
      refine wp_note _ fun l => ?_
      rw [wp_pure]
      exact hno _ d' k' l (Or.inl ⟨code, Or.inr ((hl.calls _).subset hf)⟩) (hl.trans hl') (hs'.trans hs)
  · have hfails : OpenFails P s.kern := by
      rcases hwhy with hf | hnone
      · exact Or.inl ⟨code, Or.inl hf⟩
      · exact Or.inr (Or.inl hnone)
    rw [wp_bind, wp_get]
    by_cases herr : code ≠ noEntry ∧ code ≠ s.reader.lastOpenError
    · rw [if_pos herr, wp_bind]
      refine wp_note _ fun l => ?_
      rw [wp_bind, wp_setReader, wp_pure]
      exact hno _ d k l hfails hl hs
    · rw [if_neg herr, wp_bind, wp_setReader, wp_pure]
      exact hno _ d k _ hfails hl hs

end DominoLogForwarder.FileReader
