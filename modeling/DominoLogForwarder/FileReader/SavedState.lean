/-
The state file between `SaveState` and `LoadState`, whatever other programs do to the files.

- `state_file_round_trip`: what `SaveState` saved is what `LoadState` returns, and where `ResolveStart` continues. No
  other bytes pass as a position than those which give all six numbers
-/
import DominoLogForwarder.FileReader.OpenSpec

namespace DominoLogForwarder.FileReader

open CrashProg Lines FrM
open Wal (File)

/-! ## What a state file says -/

/-- one of the lines is `name=` and a decimal number which fits in 64 bits -/
def Says (lines : List Bytes) (name : String) (n : ℕ) : Prop :=
  ∃ digits : Bytes, digits ≠ [] ∧ (∀ b ∈ digits, isDigit b = true) ∧ number digits = n ∧ n < 2 ^ 64 ∧
    ascii name ++ eqSign :: digits ∈ lines

/-- the lines before the first NUL byte -/
def textLines (bs : Bytes) : List Bytes := lines nl (bs.takeWhile (· ≠ 0)) ++ [rest nl (bs.takeWhile (· ≠ 0))]

theorem mem_textLines {bs line : Bytes} (h : line ∈ tokens bs) : line ∈ textLines bs := (List.mem_filter.1 h).1

/-- a number which `LoadState` takes is one of digits -/
theorem strtoull_takes {value : Bytes} (hrange : (strtoull value).outOfRange = false)
    (hnew : (strtoull value).rest ≠ value) (hrest : (strtoull value).rest = [])
    (hdigit : value.head?.all isDigit = true) :
    value ≠ [] ∧ (∀ b ∈ value, isDigit b = true) ∧ number value = (strtoull value).number ∧
      (strtoull value).number < 2 ^ 64 := by
  have hne : value ≠ [] := by
    intro h0
    rw [hrest, h0] at hnew
    exact hnew rfl
  obtain ⟨b, tail, rfl⟩ := List.exists_cons_of_ne_nil hne
  have hb : isDigit b = true := hdigit
  obtain ⟨hspace, hminus, hplus⟩ := not_blank_of_isDigit hb
  have hdrop : (b :: tail).dropWhile isSpace = b :: tail := by
    rw [List.dropWhile_cons, hspace]
    rfl
  have htake : (b :: tail).takeWhile isDigit ≠ [] := by
    rw [List.takeWhile_cons, hb]
    simp
  unfold strtoull at hrange hrest ⊢
  simp only [hdrop, List.head?_cons, Option.some.injEq, hminus, hplus, or_self, if_false, htake] at hrange hrest ⊢
  by_cases hbig : 2 ^ 64 ≤ number ((b :: tail).takeWhile isDigit)
  · rw [if_pos hbig] at hrange
    cases hrange
  · rw [if_neg hbig] at hrest ⊢
    have hall : ∀ b' ∈ b :: tail, isDigit b' = true := List.dropWhile_eq_nil_iff.1 hrest
    rw [takeWhile_digits hall] at hbig ⊢
    dsimp only
    exact ⟨hne, hall, rfl, Nat.not_le.1 hbig⟩

/-- every value which was found is one which a line says -/
structure Fields.Said (fields : Fields) (lines : List Bytes) : Prop where
  version : fields.version = true → Says lines "version" stateVersion
  device : ∀ n, fields.device = some n → Says lines "device" n
  inode : ∀ n, fields.inode = some n → Says lines "inode" n
  offset : ∀ n, fields.offset = some n → Says lines "offset" n
  headLen : ∀ n, fields.headLen = some n → Says lines "headlen" n
  headHash : ∀ n, fields.headHash = some n → Says lines "headhash" n

variable {lines : List Bytes} {fields fields' : Fields}

theorem setField_said {name : Bytes} {n : ℕ} (h : fields.Said lines) (hset : setField name n fields = .ok fields')
    (hvalue : ∀ known : String, name = ascii known → Says lines known n) : fields'.Said lines := by
  have hnew : ∀ {known : String} {m : ℕ}, name = ascii known → some n = some m → Says lines known m := by
    rintro known m hname ⟨⟩
    exact hvalue known hname
  unfold setField at hset
  split_ifs at hset with hv hversion hd hi ho hl hh
  · cases hset
    exact { h with version := fun _ => hversion ▸ hvalue _ hv }
  · cases hset
    exact { h with device := fun m hm => hnew hd hm }
  · cases hset
    exact { h with inode := fun m hm => hnew hi hm }
  · cases hset
    exact { h with offset := fun m hm => hnew ho hm }
  · cases hset
    exact { h with headLen := fun m hm => hnew hl hm }
  · cases hset
    exact { h with headHash := fun m hm => hnew hh hm }
  · cases hset
    exact h

theorem readField_said {line : Bytes} (h : fields.Said lines) (hline : line ∈ lines)
    (hread : readField fields line = .ok fields') : fields'.Said lines := by
  unfold readField at hread
  cases hfind : find eqSign line with
  | none =>
    rw [hfind] at hread
    cases hread
    exact h
  | some n =>
    rw [hfind] at hread
    dsimp only at hread
    split_ifs at hread with hbad
    obtain ⟨hrange, hbad⟩ := not_or.1 hbad
    obtain ⟨hnew, hbad⟩ := not_or.1 hbad
    obtain ⟨hrest, hdigit⟩ := not_or.1 hbad
    obtain ⟨hne, hall, hnumber, hlt⟩ :=
      strtoull_takes (by simpa using hrange) hnew (not_not.1 hrest) (by simpa using hdigit)
    apply setField_said h hread
    intro known hname
    refine ⟨line.drop (n + 1), hne, hall, hnumber, hlt, ?_⟩
    obtain ⟨l, xs, hsplit, hlen, -⟩ := find_eq_some hfind
    have hline' : line.take n ++ eqSign :: line.drop (n + 1) = line := by
      rw [hsplit, ← hlen]
      simp [List.drop_append]
    rw [← hname, hline']
    exact hline

theorem foldlM_readField_said {some : List Bytes} (h : fields.Said lines) (hsome : ∀ line ∈ some, line ∈ lines)
    (hread : some.foldlM readField fields = .ok fields') : fields'.Said lines := by
  induction some generalizing fields with
  | nil =>
    cases hread
    exact h
  | cons line some ih =>
    obtain ⟨hline, hrest⟩ := List.forall_mem_cons.1 hsome
    rw [List.foldlM_cons] at hread
    cases hr : readField fields line with
    | error m =>
      rw [hr] at hread
      cases hread
    | ok fields₁ =>
      rw [hr] at hread
      exact ih (readField_said h hline hr) hrest hread

/-- all that is needed for a position is there -/
structure SavedState.Said (saved : SavedState) (lines : List Bytes) : Prop where
  version : Says lines "version" stateVersion
  device : Says lines "device" saved.device
  inode : Says lines "inode" saved.inode
  offset : Says lines "offset" saved.offset
  headLen : Says lines "headlen" saved.headLen
  headHash : Says lines "headhash" saved.headHash
  headLen_le : saved.headLen ≤ headMax ∧ saved.headLen ≤ saved.offset

theorem checkFields_said {saved : SavedState} (h : fields.Said lines) (hcheck : checkFields fields = .ok saved) :
    saved.Said lines := by
  unfold checkFields at hcheck
  split at hcheck
  · split_ifs at hcheck with hfits
    cases hcheck
    obtain ⟨hmax, hoffset⟩ := not_or.1 hfits
    exact ⟨h.version rfl, h.device _ rfl, h.inode _ rfl, h.offset _ rfl, h.headLen _ rfl, h.headHash _ rfl,
      Nat.not_lt.1 hmax, Nat.not_lt.1 hoffset⟩
  · cases hcheck

/-- no other bytes pass as a position -/
theorem parseState_said {bs : Bytes} {saved : SavedState} (h : parseState bs = .ok saved) :
    saved.Said (textLines bs) := by
  unfold parseState at h
  cases hr : (tokens bs).foldlM readField {} with
  | error m =>
    rw [hr] at h
    cases h
  | ok fields =>
    rw [hr] at h
    have hstart : ({} : Fields).Said (textLines bs) := by
      refine ⟨fun h0 => ?_, fun n h0 => ?_, fun n h0 => ?_, fun n h0 => ?_, fun n h0 => ?_, fun n h0 => ?_⟩ <;> cases h0
    exact checkFields_said (foldlM_readField_said hstart (fun line => mem_textLines) hr) h

/-! ## The calls

Whatever other programs do, the state file and the temporary file are the reader's.
-/

/-- other programs do anything to the files -/
def anything (killable : Prop) : Env where
  Goes _ k _ k' := (∀ c, k'.oracle c <:+ k.oracle c) ∧ (killable ∨ k'.crashIn = none)
  Killable := killable
  trans h h' := ⟨fun c => (h'.1 c).trans (h.1 c), h'.2⟩
  right h := ⟨fun _ => List.suffix_refl _, h.2⟩
  setState _ _ h := h
  calls h := h.1
  syscall hs hc h :=
    wp_syscall_passed (fun f d k hp hf => h f d k ⟨hp.calls, hs.2.imp_right hp.alive⟩ hp.untouched hf)
      fun hcr => hc (hs.2.resolve_right hcr)

theorem anything_ready (killable : Prop) {s : Sys} (h : killable ∨ s.kern.crashIn = none) :
    (anything killable).Ready s :=
  ⟨fun _ => List.suffix_refl _, h⟩

/-! ## Saved and loaded -/

/-- the position is one of the 64-bit numbers, and the head is no longer than `FILE_READER_HEAD_MAX` -/
structure Reader.Sized (r : Reader) : Prop where
  committed : r.committed < 2 ^ 64
  head : r.head.length ≤ headMax

theorem Reader.Sized.fits {r : Reader} (h : r.Sized) : r.saved.Fits := by
  have := h.head
  refine ⟨UInt64.toNat_lt _, UInt64.toNat_lt _, h.committed, ?_, ?_, UInt64.toNat_lt _⟩
  · simp only [Reader.saved]
    split_ifs <;> omega
  · simp only [Reader.saved]
    split_ifs <;> omega

/-- nothing kills the process, and the two calls of `LoadState` do not fail -/
structure Kernel.Loads (k : Kernel) : Prop where
  alive : k.crashIn = none
  calls : ∀ c ∈ [Call.openState, .preadState], ∀ code, Fault.fail code ∉ k.oracle c

theorem saveState_saved {s s' : Sys} (h : saveState s = .done true s') :
    s'.disk.state = some (stateText s.reader.saved) := by
  have hwp : wp saveState (fun b s' => b = true → s'.disk.state = some (stateText s.reader.saved))
      (fun _ => True) s :=
    Env.saveState (anything_ready True (Or.inl trivial)) (fun _ _ _ _ _ => trivial)
      fun b failed d k l _ hsaves hb => (hsaves.done hb).2.2
  rw [wp_of_done h] at hwp
  exact hwp rfl

theorem loadState_said {s s' : Sys} {saved : SavedState} (h : loadState s = .done (.ok saved) s') :
    ∃ text, s.disk.state = some text ∧ text.length ≤ stateMax ∧ parseState text = .ok saved := by
  have hwp : wp loadState (fun x s' => Env.Loaded s x s'.log) (fun _ => True) s :=
    Env.loadState (anything_ready True (Or.inl trivial)) (fun _ _ _ _ _ => trivial)
      fun x d k l _ _ hx => hx
  rw [wp_of_done h] at hwp
  exact hwp.given saved rfl

theorem loadState_loads {s : Sys} {saved : SavedState} (hk : s.kern.Loads) (hst : s.disk.state = some (stateText saved))
    (hfits : saved.Fits) : ∃ s', loadState s = .done (.ok saved) s' := by
  have hwp : wp loadState (fun x s' => Env.Loaded s x s'.log) (fun _ => False) s :=
    Env.loadState (anything_ready False (Or.inr hk.alive)) (fun hkill => hkill.elim)
      fun x d k l _ _ hx => hx
  obtain ⟨x, s', hdone, hx⟩ := exists_of_wp hwp
  obtain rfl := hx.eq_ok hst (stateText_length_le hfits) (parseState_stateText hfits) fun code =>
    ⟨hk.calls _ (by decide) code, hk.calls _ (by decide) code⟩
  exact ⟨s', hdone⟩

/-- the position which was saved is where a new process continues in a file which only grew -/
theorem resolveStart_saved {r : Reader} {s : Sys} {c : Bytes} (hr : r.Sized) (hhead : r.head <+: c)
    (hcommitted : r.committed ≤ c.length) (hst : s.disk.state = some (stateText r.saved))
    (hgrown : c <+: (s.disk.files r.file).bytes) (hcalm : Calm (fun _ => True) s.disk s.kern) (hrel : s.kern.Reliable)
    (halive : s.kern.crashIn = none) :
    ∃ s', resolveStart r.file (s.disk.files r.file).size s = .done r.committed s' := by
  have hsaved : SavedAt s.disk r.file r.committed := by
    have hlen : r.saved.headLen ≤ r.head.length := by
      simp only [Reader.saved]
      split_ifs <;> omega
    have hhead' := hhead.trans hgrown
    refine ⟨⟨r.saved, hst, hr.fits, rfl, rfl, rfl, hlen.trans hhead'.length_le, ?_⟩, hcommitted.trans hgrown.length_le⟩
    obtain ⟨x, hx⟩ := hhead'
    rw [← hx, List.take_append_of_le_length hlen]
    rfl
  have hwp : wp (resolveStart r.file (s.disk.files r.file).size) (fun o _ => o = r.committed) (fun _ => False) s := by
    apply wp_resolveStart hcalm hrel (Or.inr ⟨_, _, hsaved⟩) rfl
    · exact fun o d k l _ _ _ _ hsame _ => hsame _ hsaved
    · exact fun d k hcr => absurd halive hcr
  obtain ⟨o, s', hdone, rfl⟩ := exists_of_wp hwp
  exact ⟨s', hdone⟩

/-- **The state file.** What `SaveState` saved is what `LoadState` returns, whatever happens to the other files in
between. A new process with the same file continues at the position which was saved, when the file had the head and the
position of the reader and only grew since then. And from any bytes `LoadState` takes a position only when the lines
before the first NUL byte give all six numbers, with the version, and with a head which fits. -/
theorem state_file_round_trip :
    (∀ s s' : Sys, s.reader.Sized → saveState s = .done true s' →
      (∀ s₂ : Sys, s₂.disk.state = s'.disk.state → s₂.kern.Loads →
        ∃ s₃, loadState s₂ = .done (.ok
          { device := s.reader.file.device.toNat
            inode := s.reader.file.inode.toNat
            offset := s.reader.committed
            headLen := min s.reader.committed s.reader.head.length
            headHash := (hashBytes (s.reader.head.take (min s.reader.committed s.reader.head.length))).toNat }) s₃) ∧
      (s.reader.head <+: (s.disk.files s.reader.file).bytes →
        s.reader.committed ≤ (s.disk.files s.reader.file).size →
        ∀ s₂ : Sys, s₂.disk.state = s'.disk.state →
          (s.disk.files s.reader.file).bytes <+: (s₂.disk.files s.reader.file).bytes →
          Calm (fun _ => True) s₂.disk s₂.kern → s₂.kern.Reliable → s₂.kern.crashIn = none →
          ∃ s₃, resolveStart s.reader.file (s₂.disk.files s.reader.file).size s₂ = .done s.reader.committed s₃)) ∧
    ∀ (s s' : Sys) (saved : SavedState), loadState s = .done (.ok saved) s' →
      ∃ text, s.disk.state = some text ∧ saved.Said (textLines text) := by
  refine ⟨fun s s' hsized hsave => ⟨fun s₂ hst hk => ?_, fun hhead hcommitted s₂ hst hgrown hcalm hrel halive => ?_⟩,
    fun s s' saved hload => ?_⟩
  · have hmin : ∀ m n : ℕ, (if m < n then m else n) = min m n := by
      intro m n
      split_ifs <;> omega
    obtain ⟨s₃, hload⟩ := loadState_loads hk (hst.trans (saveState_saved hsave)) hsized.fits
    refine ⟨s₃, ?_⟩
    rw [hload]
    simp only [Reader.saved, hmin]
  · exact resolveStart_saved hsized hhead hcommitted (hst.trans (saveState_saved hsave)) hgrown hcalm hrel halive
  · obtain ⟨text, htext, -, hparse⟩ := loadState_said hload
    exact ⟨text, htext, parseState_said hparse⟩

/-- one line of the file `a` and a part of the next one, and the line was committed -/
def oneCommitted : Sys where
  disk := { path := none, files := fun _ => ⟨ascii "a\nb", by decide⟩ }
  reader := {
    settings := { maxLineLength_pos := defaultMaxLine_pos }, file := ⟨1, 7⟩, head := ascii "a\nb", committed := 2 }
  log := []
  kern := {}

theorem state_file_round_trip_small : ∃ s' s₃ s₄ : Sys, ∃ saved : SavedState,
    saveState oneCommitted = .done true s' ∧ loadState { oneCommitted with disk := s'.disk } = .done (.ok saved) s₃ ∧
      saved.device = 1 ∧ saved.inode = 7 ∧ saved.offset = 2 ∧ saved.headLen = 2 ∧
      saved.headHash = (hashBytes (ascii "a\n")).toNat ∧
      resolveStart ⟨1, 7⟩ (s'.disk.files ⟨1, 7⟩).size { oneCommitted with disk := s'.disk } = .done 2 s₄ ∧
      ∃ text, s'.disk.state = some text ∧ saved.Said (textLines text) := by
  have hcalm : ∀ d : Disk, Calm (fun _ => True) d {} := fun d => ⟨fun _ h0 => absurd h0 List.not_mem_nil, trivial⟩
  have hrel : ({} : Kernel).Reliable := fun _ _ _ => List.not_mem_nil
  have hloads : ({} : Kernel).Loads := ⟨rfl, fun _ _ _ => List.not_mem_nil⟩
  -- nothing fails, so the state file is saved
  have hwp : wp saveState (fun b s' => b = true ∧ (oneCommitted.disk.files ⟨1, 7⟩).bytes <+:
      (s'.disk.files ⟨1, 7⟩).bytes) (fun _ => False) oneCommitted := by
    apply wp_saveState (hcalm _) hrel
    · exact fun d k hl _ => ⟨rfl, hl.files _⟩
    · exact fun d k hcr => absurd rfl hcr
  obtain ⟨b, s', hsave, rfl, hgrown⟩ := exists_of_wp hwp
  obtain ⟨hload, hresolve⟩ := state_file_round_trip.1 oneCommitted s' ⟨by decide, by decide⟩ hsave
  obtain ⟨s₃, hload⟩ := hload { oneCommitted with disk := s'.disk } rfl hloads
  obtain ⟨s₄, hresolve⟩ := hresolve (List.prefix_refl _) (by decide) { oneCommitted with disk := s'.disk } rfl hgrown
    (hcalm _) hrel rfl
  have hsaid := state_file_round_trip.2 { oneCommitted with disk := s'.disk } s₃ _ hload
  exact ⟨s', s₃, s₄, _, hsave, hload, rfl, rfl, rfl, rfl, rfl, hresolve, hsaid⟩

end DominoLogForwarder.FileReader
