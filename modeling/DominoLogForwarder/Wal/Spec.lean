/-
One rule for each function of `SimpleWal.lean`, in the form of `CallSpec.lean`. Callers use the rule of a function and
never unfold it.
-/
import DominoLogForwarder.Wal.CallSpec

namespace DominoLogForwarder.Wal

open CrashProg Framing WalM

variable {D : Files → Prop} {s : Sys}

/-! ## The commit file -/

/-- the position which the commit file stands for -/
def Files.commitValue (fs : Files) : ℕ :=
  match fs.commit with
  | some bs => if bs.length = 8 then leNat bs else 0
  | none => 0

@[simp] theorem commitValue_none (w : Option File) (q : Option Bytes) (l : Bool) :
    (Files.mk w none q l).commitValue = 0 := rfl

/-- a commit file which is cut short stands for no position -/
theorem commitValue_short {w : Option File} {q : Option Bytes} {l : Bool} {p : Bytes} (h : p.length < 8) :
    (Files.mk w (some p) q l).commitValue = 0 := by
  simp only [Files.commitValue]
  rw [if_neg (by omega)]

theorem commitValue_stored {w : Option File} {q : Option Bytes} {l : Bool} {offset : ℕ} (h : offset ≤ offMax) :
    (Files.mk w (some (leBytes 8 offset)) q l).commitValue = offset := by
  simp only [Files.commitValue, length_leBytes, if_true]
  have hmax : offMax < 256 ^ 8 := by decide
  exact leNat_leBytes 8 offset (by omega)

/-- the position of the commit file, or 0 after a call which failed -/
theorem wp_loadCommit {Q : ℕ → Sys → Prop}
    (hok : ∀ l k, s.kern.Later k → Q s.files.commitValue ⟨s.files, s.wal, l, k⟩)
    (hzero : ∀ l k, s.kern.Later k →
      s.kern.oracle .openCommit ≠ [] ∨ s.kern.oracle .statCommit ≠ [] ∨ s.kern.oracle .readCommit ≠ [] →
      Q 0 ⟨s.files, s.wal, l, k⟩)
    (hc : s.kern.crashIn ≠ none → D s.files) : wp loadCommit Q (fun s' => D s'.files) s := by
  unfold loadCommit
  rw [wp_bind]
  refine wp_attempt (fun k hk => ?_) (fun k hk ho _ => hzero _ _ hk (Or.inl ho)) hc
  rw [wp_bind, wp_get]
  cases hcom : s.files.commit with
  | none =>
    have hv : s.files.commitValue = 0 := by simp [Files.commitValue, hcom]
    have := hok s.log { k with errno := .ENOENT } (hk.errno _)
    rwa [hv] at this
  | some bs =>
    dsimp only
    rw [wp_bind]
    refine wp_attempt (fun k' hk' => ?_)
      (fun k' hk' ho _ => hzero _ _ (hk.trans hk') (Or.inr (Or.inl fun h0 => ho (hk.reliable h0))))
      (fun hcr => hc fun h0 => hcr (hk.alive h0))
    have hv : s.files.commitValue = if bs.length = 8 then leNat bs else 0 := by simp [Files.commitValue, hcom]
    dsimp only
    rw [wp_ite]
    refine ⟨fun hlen => ?_, fun hlen => ?_⟩
    · rw [if_neg hlen] at hv
      rw [wp_bind]
      exact wp_queueLine fun l => hv ▸ hok l k' (hk.trans hk')
    · rw [not_ne_iff] at hlen
      rw [if_pos hlen] at hv
      rw [wp_bind]
      refine wp_syscall (fun f k'' hk'' hf => ?_) (fun hcr => hc fun h0 => hcr ((hk.trans hk').alive h0))
      have hl := (hk.trans hk').trans hk''
      have hread : f ≠ .ok → s.kern.oracle .readCommit ≠ [] := by
        intro hne h0
        rcases hf with hf | hf
        · exact hne hf
        · rw [(hk.trans hk').reliable h0] at hf; simp at hf
      cases f with
      | ok => exact hv ▸ hok s.log k'' hl
      | short n =>
        dsimp only
        rw [wp_ite]
        refine ⟨fun _ => hv ▸ hok s.log k'' hl, fun _ => ?_⟩
        rw [wp_bind]
        exact wp_queueLine fun l => hzero l k'' hl (Or.inr (Or.inr (hread (by simp))))
      | fail code => exact hzero _ _ (hl.errno _) (Or.inr (Or.inr (hread (by simp))))

/-- the position is stored, or the commit file is as it was, or it is cut short -/
theorem wp_storeCommit {Q : Bool → Sys → Prop} {offset : ℕ}
    (hok : ∀ l k, s.kern.Later k →
      Q true ⟨{ s.files with commit := some (leBytes 8 offset) },
        { s.wal with positionEpoch := s.wal.positionEpoch + 1 }, l, k⟩)
    (hopen : ∀ l k, s.kern.Later k → s.kern.oracle .creatCommit ≠ [] → Q false ⟨s.files, s.wal, l, k⟩)
    (hwrite : ∀ p l k, s.kern.Later k → s.kern.oracle .writeCommit ≠ [] → p.length < 8 →
      Q false ⟨{ s.files with commit := some p }, { s.wal with positionEpoch := s.wal.positionEpoch + 1 }, l, k⟩)
    (hc : s.kern.crashIn ≠ none → D s.files ∧ ∀ p, p.length < 8 → D { s.files with commit := some p }) :
    wp (storeCommit offset) Q (fun s' => D s'.files) s := by
  unfold storeCommit
  rw [wp_bind]
  refine wp_attempt (fun k hk => ?_) (fun k hk ho _ => ?_) (fun hcr => (hc hcr).1)
  · have hcrash : k.crashIn ≠ none → ∀ p, p.length < 8 → D { s.files with commit := some p } :=
      fun hcr => (hc fun h0 => hcr (hk.alive h0)).2
    -- a proper prefix of the 8 bytes is what a failed or killed write leaves
    have hshort : ∀ p, p <+: leBytes 8 offset → p ≠ leBytes 8 offset → p.length < 8 := by
      intro p hp hne
      have hle := hp.length_le
      rw [length_leBytes] at hle
      refine lt_of_le_of_ne hle fun heq => hne (hp.eq_of_length ?_)
      rw [heq, length_leBytes]
    have hrest : ∀ l k', s.kern.Later k' → wp (writeOffset offset) Q (fun s' => D s'.files)
        ⟨{ s.files with commit := some [] }, { s.wal with positionEpoch := s.wal.positionEpoch + 1 }, l, k'⟩ := by
      intro l k' hk'
      unfold writeOffset
      rw [wp_bind]
      refine wp_writeAllToFd (by simp) (fun fs k'' hk'' happ => ?_) (fun p fs k'' hk'' hp hne happ hwhy => ?_)
        (fun p fs hcr hp hne happ => ?_)
      · rw [happ.commit]
        exact hok l k'' (hk'.trans hk'')
      · rw [happ.commit]
        refine hwrite p _ k'' (hk'.trans hk'') (fun h0 => ?_) (hshort p hp hne)
        rcases hwhy with hwhy | ⟨hwhy, -⟩
        · exact hwhy (hk'.reliable h0)
        · cases hwhy
      · rw [happ.commit]
        exact (hc fun h0 => hcr (hk'.alive h0)).2 p (hshort p hp hne)
    rw [wp_bind, wp_setFiles, wp_bind, wp_setWal, wp_bind]
    exact wp_restrictMode (fun l k' hk' => hrest l k' (hk.trans hk')) (fun hcr => hcrash hcr [] (by simp))
  · exact hopen _ k hk ho

/-! ## Emptying the WAL -/

/-- the files after the WAL was emptied -/
def Files.cleared (fs : Files) : Files := { fs with wal := fs.wal.map (·.truncate 0), commit := none }

/-- the object after the WAL was emptied -/
def SimpleWal.cleared (w : SimpleWal) : SimpleWal :=
  { w with pendingReplay := false, fullLogged := false, peeked := false, positionEpoch := w.positionEpoch + 1 }

@[simp] theorem walBytes_cleared (fs : Files) : fs.cleared.walBytes = [] := by
  cases h : fs.wal <;> simp [Files.walBytes, Files.cleared, File.truncate, h]

theorem wp_unlinkCommit {Q : Bool → Sys → Prop}
    (hok : ∀ k, s.kern.Later k → Q true ⟨{ s.files with commit := none }, s.wal, s.log, k⟩)
    (hnone : ∀ k, s.kern.Later k → s.files.commit = none → k.errno = .ENOENT → Q false ⟨s.files, s.wal, s.log, k⟩)
    (hfail : ∀ k, s.kern.Later k → s.kern.oracle .unlinkCommit ≠ [] → k.errno ≠ .ENOENT →
      Q false ⟨s.files, s.wal, s.log, k⟩)
    (hc : s.kern.crashIn ≠ none → D s.files) : wp unlinkCommit Q (fun s' => D s'.files) s := by
  unfold unlinkCommit
  rw [wp_bind]
  refine wp_attempt (fun k hk => ?_) (fun k hk ho he => hfail k hk ho ?_) hc
  · rw [wp_bind, wp_get]
    cases hcom : s.files.commit with
    | none => exact hnone _ (hk.errno _) hcom rfl
    | some bs => exact hok k hk
  · obtain ⟨code, he⟩ := he
    rw [he]; simp

/-- the commit file is removed before the WAL file is emptied, so a failure in between leaves no position behind the end
-/
theorem wp_clearInternal {Q : Bool → Sys → Prop}
    (hclosed : s.wal.fd = false → Q true s)
    (hok : s.wal.fd = true → ∀ l k, s.kern.Later k → Q true ⟨s.files.cleared, s.wal.cleared, l, k⟩)
    (hkept : s.wal.fd = true → ∀ l k, s.kern.Later k → s.kern.oracle .unlinkCommit ≠ [] →
      Q false ⟨s.files, s.wal, l, k⟩)
    (hremoved : s.wal.fd = true → ∀ l k, s.kern.Later k → s.kern.oracle .truncate ≠ [] →
      Q false ⟨{ s.files with commit := none }, s.wal, l, k⟩)
    (hemptied : s.wal.fd = true → ∀ l k, s.kern.Later k → s.kern.oracle .rewind ≠ [] →
      Q false ⟨s.files.cleared, s.wal, l, k⟩)
    (hc : s.kern.crashIn ≠ none → D s.files ∧ D { s.files with commit := none } ∧ D s.files.cleared) :
    wp clearInternal Q (fun s' => D s'.files) s := by
  unfold clearInternal
  rw [wp_bind, wp_get, wp_ite]
  refine ⟨hclosed, fun hfd => ?_⟩
  have hfd : s.wal.fd = true := by simpa using hfd
  -- the commit file is gone: the WAL is truncated
  have hrest : ∀ k, s.kern.Later k →
      wp emptyWal Q (fun s' => D s'.files) ⟨{ s.files with commit := none }, s.wal, s.log, k⟩ := by
    intro k hk
    have hcr : ∀ {k' : Kernel}, s.kern.Later k' → k'.crashIn ≠ none → s.kern.crashIn ≠ none :=
      fun hk' hcr h0 => hcr (hk'.alive h0)
    unfold emptyWal ftruncate
    rw [wp_bind, wp_bind]
    refine wp_attempt (fun k1 hk1 => ?_) (fun k1 hk1 ho _ => ?_) (fun h => (hc (hcr hk h)).2.1)
    · show wp (attempt .rewind >>= _) Q _ _
      rw [wp_bind]
      refine wp_attempt (fun k2 hk2 => ?_) (fun k2 hk2 ho _ => ?_) (fun h => (hc (hcr (hk.trans hk1) h)).2.2)
      · show wp (queueInfo .walReset >>= _) Q _ _
        rw [wp_bind]
        exact wp_queueInfo fun l => hok hfd l k2 ((hk.trans hk1).trans hk2)
      · exact hemptied hfd _ k2 ((hk.trans hk1).trans hk2) fun h0 => ho ((hk.trans hk1).reliable h0)
    · exact hremoved hfd _ k1 (hk.trans hk1) fun h0 => ho (hk.reliable h0)
  rw [wp_bind]
  refine wp_unlinkCommit (fun k hk => ?_) (fun k hk hnone he => ?_) (fun k hk ho he => ?_) fun h => (hc h).1
  · rw [wp_bind, wp_get, if_neg (by simp)]
    exact hrest k hk
  · rw [wp_bind, wp_get, if_neg (by simp [he])]
    have hsame : s.files = { s.files with commit := none } := by rw [← hnone]
    have := hrest k hk
    rwa [← hsame] at this
  · rw [wp_bind, wp_get, if_pos ⟨rfl, he⟩]
    exact hkept hfd _ k hk ho

/-! ## Record boundaries and the position -/

/-- the walk decides the boundaries: it visits them in order, and none is left out -/
theorem wp_walkRecords {Q : Bool → Sys → Prop} {offset fileSize fuel pos : ℕ}
    (hsize : fileSize = s.files.walBytes.length) (hpos : IsBoundary lenSize s.files.walBytes pos)
    (hle : IsBoundary lenSize s.files.walBytes offset → pos ≤ offset) (hfuel : offset ≤ pos + fuel)
    (hok : ∀ b k, s.kern.Later k → (b = true ↔ IsBoundary lenSize s.files.walBytes offset) →
      Q b ⟨s.files, s.wal, s.log, k⟩)
    (hfail : ∀ k, s.kern.Later k → s.kern.oracle .preadWalk ≠ [] → Q false ⟨s.files, s.wal, s.log, k⟩)
    (hc : s.kern.crashIn ≠ none → D s.files) :
    wp (walkRecords offset fileSize fuel pos) Q (fun s' => D s'.files) s := by
  have hend : offset ≤ pos → ∀ k, s.kern.Later k → Q (pos == offset) ⟨s.files, s.wal, s.log, k⟩ := by
    intro hge k hk
    refine hok _ k hk ⟨fun heq => ?_, fun hb => ?_⟩
    · rw [beq_iff_eq] at heq
      exact heq ▸ hpos
    · rw [beq_iff_eq]
      exact le_antisymm (hle hb) hge
  induction fuel generalizing pos s with
  | zero => exact hend (by omega) s.kern (.refl _)
  | succ fuel ih =>
    unfold walkRecords
    rw [wp_ite]
    refine ⟨fun hlt => ?_, fun hge => hend (by omega) s.kern (.refl _)⟩
    have hmax := s.files.walBytes_le
    have hposle := hpos.le
    have hbig : offMax < 2 ^ 63 := by decide
    have hdlen : (s.files.walBytes.drop pos).length = s.files.walBytes.length - pos := List.length_drop
    -- behind a position which does not start a record there is no boundary
    have hnone : parseFrame lenSize (s.files.walBytes.drop pos) = none →
        ¬ IsBoundary lenSize s.files.walBytes offset := by
      intro hn hb
      obtain ⟨r, rest, hr, -⟩ := isBoundary_next hpos hb hlt
      rw [hn] at hr
      cases hr
    -- the round with the length in hand
    have hround : ∀ k, s.kern.Later k → wp (
        if (List.take lenSize (s.files.walBytes.drop pos)).length ≠ lenSize then pure false
        else if leNat (List.take lenSize (s.files.walBytes.drop pos)) = 0 ∨
            sub64 (sub64 fileSize pos) lenSize < leNat (List.take lenSize (s.files.walBytes.drop pos)) then pure false
        else walkRecords offset fileSize fuel
          (add64 pos (lenSize + leNat (List.take lenSize (s.files.walBytes.drop pos))))) Q (fun s' => D s'.files)
        ⟨s.files, s.wal, s.log, k⟩ := by
      intro k hk
      rw [wp_ite]
      refine ⟨fun hshort => ?_, fun hlen => ?_⟩
      · exact hok _ k hk (by simp [hnone (parseFrame_short hshort)])
      · rw [not_ne_iff] at hlen
        have hfit : lenSize ≤ (s.files.walBytes.drop pos).length := by
          rw [List.length_take] at hlen; omega
        rw [hdlen] at hfit
        have hrem : sub64 (sub64 fileSize pos) lenSize = (s.files.walBytes.drop pos).length - lenSize := by
          rw [hdlen, hsize, sub64_of_le (by omega) hposle, sub64_of_le (by omega) hfit]
        rw [hrem, wp_ite]
        refine ⟨fun hbad => ?_, fun hgood => ?_⟩
        · exact hok _ k hk (by simp [hnone (parseFrame_bad hbad)])
        · have hparse := parseFrame_good hlen hgood
          generalize hL : leNat (List.take lenSize (s.files.walBytes.drop pos)) = L at hparse hgood ⊢
          have hrlen : ((s.files.walBytes.drop pos).drop lenSize |>.take L).length = L := by
            simp only [List.length_take, List.length_drop]
            simp only [List.length_drop] at hgood
            omega
          have hadd : add64 pos (lenSize + L) = pos + (lenSize + L) := by
            refine add64_of_lt ?_
            rw [hdlen] at hgood
            omega
          have hb := isBoundary_step hparse hpos
          rw [hrlen] at hb
          rw [hadd]
          refine ih (s := ⟨s.files, s.wal, s.log, k⟩) hsize hb ?_ (by omega) ?_ ?_ ?_ ?_
          · intro hboff
            obtain ⟨r, rest, hr, hle'⟩ := isBoundary_next hpos hboff hlt
            rw [hparse] at hr
            obtain ⟨rfl, -⟩ := Prod.mk.inj (Option.some.inj hr)
            rwa [hrlen] at hle'
          · exact fun b k' hk' hiff => hok b k' (hk.trans hk') hiff
          · exact fun k' hk' ho => hfail k' (hk.trans hk') fun h0 => ho (hk.reliable h0)
          · exact fun hcr => hc fun h0 => hcr (hk.alive h0)
          · intro hge k' hk'
            refine hok _ k' (hk.trans hk') ⟨fun heq => ?_, fun hboff => ?_⟩
            · rw [beq_iff_eq] at heq
              exact heq ▸ hb
            · obtain ⟨r, rest, hr, hle'⟩ := isBoundary_next hpos hboff hlt
              rw [hparse] at hr
              obtain ⟨rfl, -⟩ := Prod.mk.inj (Option.some.inj hr)
              rw [hrlen] at hle'
              rw [beq_iff_eq]
              exact le_antisymm hle' hge
    rw [wp_bind]
    refine wp_pread (fun k hk => hround k hk) (fun k hk ho => hfail k hk ho) (fun n k hk hn => ?_) hc
    have ho : s.kern.oracle .preadWalk ≠ [] := fun h0 => by rw [h0] at hn; simp at hn
    rcases le_or_gt lenSize n with hge | hlt'
    · rw [List.take_take, min_eq_right hge]
      exact hround k hk
    · dsimp only
      rw [if_pos]
      · exact hfail k hk ho
      · rw [List.take_take, List.length_take]
        omega

/-- without a failure the answer is whether a record starts at `offset` -/
theorem wp_isRecordBoundary {Q : Bool → Sys → Prop} {offset fileSize : ℕ}
    (hsize : fileSize = s.files.walBytes.length)
    (hok : ∀ b k, s.kern.Later k → (b = true ↔ IsBoundary lenSize s.files.walBytes offset) →
      Q b ⟨s.files, s.wal, s.log, k⟩)
    (hfail : ∀ k, s.kern.Later k → s.kern.oracle .preadWalk ≠ [] → Q false ⟨s.files, s.wal, s.log, k⟩)
    (hc : s.kern.crashIn ≠ none → D s.files) :
    wp (isRecordBoundary offset fileSize) Q (fun s' => D s'.files) s :=
  wp_walkRecords hsize (isBoundary_zero _) (fun _ => Nat.zero_le _) (by omega) hok hfail hc

/-- where a replay of the WAL `bs` starts, with the position `v` in the commit file. The position is only compared with
the records while `checked` is false -/
def StartsAt (bs : Bytes) (v : ℕ) (checked : Bool) (offset : ℕ) : Prop :=
  (bs.length < v ∧ offset = 0) ∨
  (v ≤ bs.length ∧ checked = true ∧ offset = v) ∨
  (v ≤ bs.length ∧ checked = false ∧ (v = bs.length ∨ IsBoundary lenSize bs v) ∧ offset = v) ∨
  (v ≤ bs.length ∧ checked = false ∧ ¬ IsBoundary lenSize bs v ∧ offset = 0)

/-- the calls whose failure makes a replay start at 0 -/
def positionCalls : List Call := [.openCommit, .statCommit, .readCommit, .preadWalk]

theorem wp_dropStale {Q : ℕ → Sys → Prop} {C : Sys → Prop} {offset fileSize : ℕ}
    (h : ∀ l, Q (if fileSize < offset then 0 else offset) ⟨s.files, s.wal, l, s.kern⟩) :
    wp (dropStale offset fileSize) Q C s := by
  unfold dropStale
  split_ifs at h ⊢
  · rw [wp_bind]
    exact wp_queueLine h
  · exact h _

theorem wp_isStart {Q : Bool → Sys → Prop} {offset fileSize : ℕ} (hsize : fileSize = s.files.walBytes.length)
    (hle : offset ≤ fileSize)
    (hok : ∀ b k, s.kern.Later k →
      (b = true ↔ offset = s.files.walBytes.length ∨ IsBoundary lenSize s.files.walBytes offset) →
      Q b ⟨s.files, s.wal, s.log, k⟩)
    (hfail : ∀ k, s.kern.Later k → s.kern.oracle .preadWalk ≠ [] → Q false ⟨s.files, s.wal, s.log, k⟩)
    (hc : s.kern.crashIn ≠ none → D s.files) :
    wp (isStart offset fileSize) Q (fun s' => D s'.files) s := by
  unfold isStart
  rw [wp_ite]
  refine ⟨fun hin => ?_, fun hno => ?_⟩
  · refine wp_isRecordBoundary hsize (fun b k hk hiff => hok b k hk ?_) hfail hc
    have hne : offset ≠ s.files.walBytes.length := by omega
    rw [hiff]
    exact ⟨Or.inr, fun h => h.resolve_left hne⟩
  · refine hok true s.kern (.refl _) ⟨fun _ => ?_, fun _ => rfl⟩
    rcases Nat.eq_zero_or_pos offset with h0 | h0
    · exact Or.inr (h0 ▸ isBoundary_zero _)
    · left; omega

/-- where a replay starts, or 0 when the position cannot be read or checked -/
theorem wp_getReplayPosition {Q : ℕ → Sys → Prop} {fileSize : ℕ} (hsize : fileSize = s.files.walBytes.length)
    (hok : ∀ offset l k, s.kern.Later k →
      StartsAt s.files.walBytes s.files.commitValue s.wal.commitChecked offset →
      Q offset ⟨s.files, { s.wal with commitChecked := true }, l, k⟩)
    (hzero : ∀ l k, s.kern.Later k → (∃ c ∈ positionCalls, s.kern.oracle c ≠ []) →
      Q 0 ⟨s.files, { s.wal with commitChecked := true }, l, k⟩)
    (hc : s.kern.crashIn ≠ none → D s.files) :
    wp (getReplayPosition fileSize) Q (fun s' => D s'.files) s := by
  unfold getReplayPosition
  -- the part behind the loading of the position
  have hrest : ∀ v l k, s.kern.Later k →
      (∀ offset l k, s.kern.Later k → StartsAt s.files.walBytes v s.wal.commitChecked offset →
        Q offset ⟨s.files, { s.wal with commitChecked := true }, l, k⟩) →
      wp (dropStale v fileSize >>= fun offset => Prog.get >>= fun s =>
        if s.wal.commitChecked then pure offset
        else isStart offset fileSize >>= fun start =>
          setWal (fun w => { w with commitChecked := true }) >>= fun _ =>
          if start then pure offset
          else queueWarning (.commitNotStart offset) >>= fun _ => pure 0) Q (fun s' => D s'.files)
        ⟨s.files, s.wal, l, k⟩ := by
    intro v l k hk hst
    have hv : (if fileSize < v then 0 else v) ≤ fileSize := by split_ifs <;> omega
    rw [wp_bind]
    refine wp_dropStale fun l => ?_
    rw [wp_bind, wp_get, wp_ite]
    refine ⟨fun hch => ?_, fun hch => ?_⟩
    · have hch : s.wal.commitChecked = true := hch
      have hsame : s.wal = { s.wal with commitChecked := true } := by rw [← hch]
      rw [wp_pure]
      show Q _ ⟨s.files, s.wal, l, k⟩
      rw [hsame]
      refine hst _ l k hk ?_
      split_ifs with h
      · exact Or.inl ⟨by omega, rfl⟩
      · exact Or.inr (Or.inl ⟨by omega, hch, rfl⟩)
    · have hch : s.wal.commitChecked = false := by simpa using hch
      rw [wp_bind]
      refine wp_isStart (s := ⟨s.files, s.wal, l, k⟩) hsize hv (fun b k' hk' hiff => ?_) (fun k' hk' ho => ?_)
        (fun hcr => hc fun h0 => hcr (hk.alive h0))
      · rw [wp_bind, wp_setWal]
        cases b with
        | true =>
          refine hst _ l k' (hk.trans hk') ?_
          split_ifs at hiff ⊢ with h
          · exact Or.inl ⟨by omega, rfl⟩
          · exact Or.inr (Or.inr (Or.inl ⟨by omega, hch, hiff.1 rfl, rfl⟩))
        | false =>
          refine hst _ _ k' (hk.trans hk') ?_
          split_ifs at hiff with h
          · exact Or.inl ⟨by omega, rfl⟩
          · refine Or.inr (Or.inr (Or.inr ⟨by omega, hch, fun hb => ?_, rfl⟩))
            exact absurd (hiff.2 (Or.inr hb)) (by decide)
      · exact hzero _ k' (hk.trans hk') ⟨.preadWalk, by simp [positionCalls], fun h0 => ho (hk.reliable h0)⟩
  rw [wp_bind]
  refine wp_loadCommit (fun l k hk => hrest _ l k hk hok) (fun l k hk ho => ?_) hc
  have hcall : ∃ c ∈ positionCalls, s.kern.oracle c ≠ [] := by
    rcases ho with ho | ho | ho
    · exact ⟨_, by simp [positionCalls], ho⟩
    · exact ⟨_, by simp [positionCalls], ho⟩
    · exact ⟨_, by simp [positionCalls], ho⟩
  refine hrest 0 l k hk fun offset l k hk hst => ?_
  have h0 : offset = 0 := by
    rcases hst with ⟨-, h⟩ | ⟨-, -, h⟩ | ⟨-, -, -, h⟩ | ⟨-, -, -, h⟩ <;> exact h
  exact h0 ▸ hzero l k hk hcall

/-! ## Reading and repairing -/

/-- a file with more bytes in the `.corrupt` file -/
def Files.quarantined (fs : Files) (bs : Bytes) : Files := { fs with corrupt := some (fs.corrupt.getD [] ++ bs) }

theorem wp_copyTail {Q : Bool → Sys → Prop} {stop fuel pos : ℕ} {kept : Bytes}
    (hkept : s.files.corrupt = some kept) (hstop : stop ≤ s.files.walBytes.length) (hfuel : stop ≤ pos + fuel)
    (hok : ∀ k, s.kern.Later k →
      Q true ⟨{ s.files with corrupt := some (kept ++ (s.files.walBytes.drop pos).take (stop - pos)) },
        s.wal, s.log, k⟩)
    (hfail : ∀ q l k, s.kern.Later k → s.kern.oracle .preadCorrupt ≠ [] ∨ s.kern.oracle .writeCorrupt ≠ [] →
      Q false ⟨{ s.files with corrupt := q }, s.wal, l, k⟩)
    (hc : s.kern.crashIn ≠ none → ∀ q, D { s.files with corrupt := q }) :
    wp (copyTail stop fuel pos) Q (fun s' => D s'.files) s := by
  have hend : stop ≤ pos → Q true s := by
    intro hge
    have h := hok s.kern (.refl _)
    have h0 : stop - pos = 0 := by omega
    rw [h0, List.take_zero, List.append_nil, ← hkept] at h
    exact h
  induction fuel generalizing pos s kept with
  | zero => exact hend (by omega)
  | succ fuel ih =>
    unfold copyTail
    rw [wp_ite]
    refine ⟨fun hlt => ?_, fun hge => hend (by omega)⟩
    have hdcr : s.kern.crashIn ≠ none → D s.files := by
      intro hcr
      exact hc hcr s.files.corrupt
    -- a round with at least one byte in hand, which is a prefix of what is still to copy
    have hround : ∀ bs k, s.kern.Later k → bs <+: (s.files.walBytes.drop pos).take (stop - pos) →
        (bs = [] → s.kern.oracle .preadCorrupt ≠ []) →
        wp (copyRound stop fuel pos (some bs)) Q (fun s' => D s'.files) ⟨s.files, s.wal, s.log, k⟩ := by
      intro bs k hk hp hnil
      cases bs with
      | nil => exact hfail s.files.corrupt _ k hk (Or.inl (hnil rfl))
      | cons b bs =>
        dsimp only [copyRound]
        rw [wp_bind]
        refine wp_writeAllToFd (by simp) (fun fs k' hk' happ => ?_) (fun p fs k' hk' _ _ happ hwhy => ?_)
          (fun p fs hcr _ _ happ => ?_)
        · obtain ⟨t, ht⟩ := hp
          have hlen : (b :: bs).length ≤ stop - pos := by
            have := congrArg List.length ht
            simp only [List.length_append, List.length_take, List.length_drop] at this
            omega
          have hrest : (s.files.walBytes.drop pos).take (stop - pos) = (b :: bs) ++
              (s.files.walBytes.drop (pos + (bs.length + 1))).take (stop - (pos + (bs.length + 1))) := by
            have hsplit : stop - pos = (b :: bs).length + (stop - (pos + (bs.length + 1))) := by
              simp only [List.length_cons] at hlen ⊢; omega
            have hbs : (s.files.walBytes.drop pos).take (b :: bs).length = b :: bs := by
              have := congrArg (List.take (b :: bs).length) ht
              rw [List.take_left' rfl, List.take_take, min_eq_left hlen] at this
              exact this.symm
            rw [hsplit, List.take_add, hbs, List.drop_drop]
            simp
          have hfs := happ.corrupt
          simp only [hkept, Option.map_some] at hfs
          subst hfs
          simp only [List.length_cons] at hlen
          refine ih (s := ⟨_, s.wal, s.log, k'⟩) rfl hstop (by omega) ?_ ?_ ?_ ?_
          · intro k'' hk''
            have := hok k'' ((hk.trans hk').trans hk'')
            rw [hrest, ← List.append_assoc] at this
            exact this
          · intro q l k'' hk'' ho
            refine hfail q l k'' ((hk.trans hk').trans hk'') (ho.imp (fun h h0 => ?_) (fun h h0 => ?_))
            · exact h ((hk.trans hk').reliable h0)
            · exact h ((hk.trans hk').reliable h0)
          · exact fun hcr => hc fun h0 => hcr ((hk.trans hk').alive h0)
          · intro hge
            have := hok k' (hk.trans hk')
            rw [hrest, show stop - (pos + (bs.length + 1)) = 0 by omega] at this
            simpa using this
        · rw [happ.corrupt]
          refine hfail _ _ k' (hk.trans hk') (Or.inr fun h0 => ?_)
          rcases hwhy with hwhy | ⟨hwhy, -⟩
          · exact hwhy (hk.reliable h0)
          · cases hwhy
        · rw [happ.corrupt]
          exact hc (fun h0 => hcr (hk.alive h0)) _
    have hchunk : List.take (min 65536 (stop - pos)) (s.files.walBytes.drop pos) <+:
        (s.files.walBytes.drop pos).take (stop - pos) := List.take_prefix_take_left (min_le_right _ _)
    have hne : List.take (min 65536 (stop - pos)) (s.files.walBytes.drop pos) ≠ [] := by
      intro h
      have := congrArg List.length h
      simp only [List.length_take, List.length_drop, List.length_nil] at this
      omega
    rw [wp_bind]
    refine wp_pread (fun k hk => hround _ k hk hchunk (fun h => absurd h hne)) (fun k hk ho => ?_)
      (fun n k hk hn => ?_) hdcr
    · exact hfail s.files.corrupt _ k hk (Or.inl ho)
    · exact hround _ k hk ((List.take_prefix _ _).trans hchunk) fun _ h0 => by rw [h0] at hn; simp at hn

/-- the bytes from `start` on are in the `.corrupt` file, or some of them are and the call fails -/
theorem wp_quarantineTail {Q : Bool → Sys → Prop} {start : ℕ}
    (hok : ∀ l k, s.kern.Later k → Q true ⟨s.files.quarantined (s.files.walBytes.drop start), s.wal, l, k⟩)
    (hfail : ∀ q l k, s.kern.Later k →
      s.kern.oracle .openCorrupt ≠ [] ∨ s.kern.oracle .preadCorrupt ≠ [] ∨ s.kern.oracle .writeCorrupt ≠ [] →
      Q false ⟨{ s.files with corrupt := q }, s.wal, l, k⟩)
    (hc : s.kern.crashIn ≠ none → ∀ q, D { s.files with corrupt := q }) :
    wp (quarantineTail start s.files.walBytes.length) Q (fun s' => D s'.files) s := by
  unfold quarantineTail
  rw [wp_bind]
  refine wp_attempt (fun k hk => ?_) (fun k hk ho _ => hfail s.files.corrupt _ k hk (Or.inl ho))
    (fun hcr => hc hcr s.files.corrupt)
  dsimp only
  rw [wp_bind, wp_setFiles, wp_bind]
  refine wp_copyTail (s := ⟨{ s.files with corrupt := some (s.files.corrupt.getD []) }, s.wal, s.log, k⟩) rfl le_rfl
    (by omega) (fun k' hk' => ?_) (fun q l k' hk' ho => ?_) (fun hcr q => hc (fun h0 => hcr (hk.alive h0)) q)
  · have hall : (s.files.walBytes.drop start).take (s.files.walBytes.length - start) = s.files.walBytes.drop start :=
      List.take_of_length_le (by rw [List.length_drop])
    show wp (queueError _ >>= _) Q _ _
    rw [wp_bind]
    refine wp_queueLine fun l => ?_
    have := hok l k' (hk.trans hk')
    rw [Files.quarantined, ← hall] at this
    exact this
  · exact hfail q _ k' (hk.trans hk') (Or.inr (ho.imp (fun h h0 => h (hk.reliable h0)) fun h h0 => h (hk.reliable h0)))

/-- the calls whose failure makes `ReadRecord` stop -/
def readCalls : List Call := [.fstat, .preadLen, .alloc, .preadData, .openCorrupt, .preadCorrupt, .writeCorrupt]

theorem wp_getFileSize {Q : Option ℕ → Sys → Prop}
    (hok : ∀ k, s.kern.Later k → Q (some s.files.walBytes.length) ⟨s.files, s.wal, s.log, k⟩)
    (hfail : ∀ k, s.kern.Later k → s.kern.oracle .fstat ≠ [] → Q none ⟨s.files, s.wal, s.log, k⟩)
    (hc : s.kern.crashIn ≠ none → D s.files) : wp getFileSize Q (fun s' => D s'.files) s := by
  unfold getFileSize
  rw [wp_bind]
  exact wp_attempt hok (fun k hk ho _ => hfail k hk ho) hc

/-- what stands at `offset` decides: a record, the end, or bytes which are no record and go to the `.corrupt` file.
Emptying the WAL is left to the rule of `clearInternal` -/
theorem wp_readRecord {Q : ReadResult → Sys → Prop} {offset : ℕ}
    (hrecord : ∀ r rest, parseFrame lenSize (s.files.walBytes.drop offset) = some (r, rest) →
      offset + (lenSize + r.length) ≤ s.files.walBytes.length →
      ∀ l k, s.kern.Later k → Q (.record r) ⟨s.files, s.wal, l, k⟩)
    (hempty : offset = s.files.walBytes.length → ∀ l k, s.kern.Later k →
      wp clearInternal (fun b => Q (.empty b)) (fun s' => D s'.files) ⟨s.files, s.wal, l, k⟩)
    (hdamaged : offset < s.files.walBytes.length →
      (parseFrame lenSize (s.files.walBytes.drop offset) = none ∨ ∃ n, Fault.short n ∈ s.kern.oracle .preadLen) →
      ∀ l k, s.kern.Later k → wp clearInternal (fun b => Q (.damaged b)) (fun s' => D s'.files)
        ⟨s.files.quarantined (s.files.walBytes.drop offset), s.wal, l, k⟩)
    (hchanged : s.files.walBytes.length < offset → ∀ l k, s.kern.Later k → Q .changed ⟨s.files, s.wal, l, k⟩)
    (hstop : ∀ q l k, s.kern.Later k → (∃ c ∈ readCalls, s.kern.oracle c ≠ []) →
      Q .stop ⟨{ s.files with corrupt := q }, s.wal, l, k⟩)
    (hc : s.kern.crashIn ≠ none → ∀ q, D { s.files with corrupt := q }) :
    wp (readRecord offset) Q (fun s' => D s'.files) s := by
  have hstop' : ∀ l k, s.kern.Later k → ∀ c ∈ readCalls, s.kern.oracle c ≠ [] → Q .stop ⟨s.files, s.wal, l, k⟩ :=
    fun l k hk c hcm ho => hstop s.files.corrupt l k hk ⟨c, hcm, ho⟩
  have hdc : ∀ {k : Kernel}, s.kern.Later k → k.crashIn ≠ none → D s.files :=
    fun hk hcr => hc (fun h0 => hcr (hk.alive h0)) s.files.corrupt
  have hmax := s.files.walBytes_le
  have hbig : offMax < 2 ^ 63 := by decide
  unfold readRecord
  rw [wp_bind]
  refine wp_getFileSize (fun k hk => ?_) (fun k hk ho => ?_) (fun hcr => hdc (.refl _) hcr)
  · dsimp only
    rw [wp_ite]
    refine ⟨fun hlt => hchanged hlt _ k hk, fun hle => ?_⟩
    have hle : offset ≤ s.files.walBytes.length := by omega
    have hrem : sub64 s.files.walBytes.length offset = s.files.walBytes.length - offset :=
      sub64_of_le (by omega) hle
    have hdlen : (s.files.walBytes.drop offset).length = s.files.walBytes.length - offset := List.length_drop
    rw [wp_ite, hrem]
    refine ⟨fun h0 => ?_, fun h0 => ?_⟩
    · rw [wp_bind]
      exact hempty (by omega) _ k hk
    · -- the damaged branch, for whatever reason it is taken
      have hbad : ∀ k, s.kern.Later k →
          (parseFrame lenSize (s.files.walBytes.drop offset) = none ∨ ∃ n, Fault.short n ∈ s.kern.oracle .preadLen) →
          wp (repair offset s.files.walBytes.length) Q (fun s' => D s'.files) ⟨s.files, s.wal, s.log, k⟩ := by
        intro k hk hwhy
        unfold repair
        rw [wp_bind]
        refine wp_quarantineTail (s := ⟨s.files, s.wal, s.log, k⟩) (fun l k' hk' => ?_) (fun q l k' hk' ho => ?_)
          (fun hcr => hc fun h0 => hcr (hk.alive h0))
        · dsimp only
          rw [wp_bind]
          exact hdamaged (by omega) hwhy l k' (hk.trans hk')
        · refine hstop q l k' (hk.trans hk') ?_
          rcases ho with ho | ho | ho
          · exact ⟨_, by simp [readCalls], fun h0 => ho (hk.reliable h0)⟩
          · exact ⟨_, by simp [readCalls], fun h0 => ho (hk.reliable h0)⟩
          · exact ⟨_, by simp [readCalls], fun h0 => ho (hk.reliable h0)⟩
      have hfull : ∀ k, s.kern.Later k →
          wp (readBehind offset s.files.walBytes.length (s.files.walBytes.length - offset)
            (List.take lenSize (s.files.walBytes.drop offset))) Q (fun s' => D s'.files)
              ⟨s.files, s.wal, s.log, k⟩ := by
        intro k hk
        unfold readBehind
        have hsub : (List.take lenSize (s.files.walBytes.drop offset)).length = lenSize →
            sub64 (s.files.walBytes.length - offset) lenSize = (s.files.walBytes.drop offset).length - lenSize := by
          intro hlen
          rw [List.length_take] at hlen
          rw [hdlen] at hlen ⊢
          exact sub64_of_le (by omega) (by omega)
        rw [wp_ite]
        refine ⟨fun hb => hbad k hk (Or.inl ?_), fun hgood => ?_⟩
        · by_cases hlen : (List.take lenSize (s.files.walBytes.drop offset)).length = lenSize
          · rw [hsub hlen] at hb
            exact parseFrame_bad (hb.resolve_left (not_not_intro hlen))
          · exact parseFrame_short hlen
        · have hlen : (List.take lenSize (s.files.walBytes.drop offset)).length = lenSize := by
            by_contra h
            exact hgood (Or.inl h)
          have hgood' : ¬ (leNat (List.take lenSize (s.files.walBytes.drop offset)) = 0 ∨
              (s.files.walBytes.drop offset).length - lenSize <
                leNat (List.take lenSize (s.files.walBytes.drop offset))) := by
            rw [← hsub hlen]
            exact fun h => hgood (Or.inr h)
          have hparse := parseFrame_good hlen hgood'
          generalize leNat (List.take lenSize (s.files.walBytes.drop offset)) = L at hparse hgood' ⊢
          have hdata : ((s.files.walBytes.drop offset).drop lenSize).take L =
              (s.files.walBytes.drop (offset + lenSize)).take L := by rw [List.drop_drop]
          have hL : ((s.files.walBytes.drop (offset + lenSize)).take L).length = L := by
            rw [hdlen] at hgood'
            rw [List.length_take, List.length_drop]
            omega
          rw [hdata] at hparse
          have hend : offset + (lenSize + L) ≤ s.files.walBytes.length := by
            rw [List.length_take] at hlen
            rw [hdlen] at hgood' hlen
            omega
          rw [wp_bind]
          refine wp_attempt (fun k' hk' => ?_) (fun k' hk' ho _ => ?_) (fun hcr => hdc hk hcr)
          · dsimp only
            rw [wp_bind]
            have hl := hk.trans hk'
            refine wp_pread (fun k'' hk'' => ?_) (fun k'' hk'' ho => ?_) (fun n k'' hk'' hn => ?_)
              (fun hcr => hdc hl hcr)
            · dsimp only
              rw [if_neg (not_not_intro hL)]
              exact hrecord _ _ hparse (by rw [hL]; exact hend) _ k'' (hl.trans hk'')
            · exact hstop' _ k'' (hl.trans hk'') .preadData (by simp [readCalls]) fun h0 => ho (hl.reliable h0)
            · have ho : s.kern.oracle .preadData ≠ [] := fun h0 => by
                rw [show (Kernel.oracle _ Call.preadData) = [] from hl.reliable h0] at hn
                simp at hn
              dsimp only
              rw [wp_ite]
              refine ⟨fun _ => hstop' _ k'' (hl.trans hk'') .preadData (by simp [readCalls]) ho, fun hfull => ?_⟩
              rw [not_ne_iff] at hfull
              have hsame : List.take n (List.take L (s.files.walBytes.drop (offset + lenSize))) =
                  List.take L (s.files.walBytes.drop (offset + lenSize)) :=
                List.IsPrefix.eq_of_length (List.take_prefix _ _) (hfull.trans hL.symm)
              have := hrecord _ _ hparse (by rw [hL]; exact hend) s.log k'' (hl.trans hk'')
              rw [← hsame] at this
              exact this
          · rw [wp_bind]
            exact wp_queueLine fun l => hstop' l k' (hk.trans hk') .alloc (by simp [readCalls])
              fun h0 => ho (hk.reliable h0)
      rw [wp_bind]
      refine wp_pread (fun k' hk' => hfull k' (hk.trans hk')) (fun k' hk' ho => ?_) (fun n k' hk' hn => ?_)
        (fun hcr => hdc hk hcr)
      · exact hstop' _ k' (hk.trans hk') .preadLen (by simp [readCalls]) fun h0 => ho (hk.reliable h0)
      · rcases le_or_gt lenSize n with hge | hlt
        · rw [List.take_take, min_eq_right hge]
          exact hfull k' (hk.trans hk')
        · dsimp only
          rw [if_pos]
          · exact hbad k' (hk.trans hk') (Or.inr ⟨n, (hk.calls _).subset hn⟩)
          · left
            rw [List.take_take, List.length_take]
            omega
  · exact hstop' _ k hk .fstat (by simp [readCalls]) ho

/-! ## Append -/

/-- a file with the bytes of an open WAL file replaced -/
def Files.withWal (fs : Files) (f : File) : Files := { fs with wal := some f }

theorem withWal_self {fs : Files} {f f' : File} (hf : fs.wal = some f) (hb : f'.bytes = f.bytes) :
    fs.withWal f' = fs := by
  rw [Files.withWal, File.ext_bytes hb, ← hf]

/-- the files after the WAL file was cut at `n` -/
def Files.truncated (fs : Files) (n : ℕ) : Files := { fs with wal := fs.wal.map (·.truncate n) }

@[simp] theorem walBytes_withWal (fs : Files) (f : File) : (fs.withWal f).walBytes = f.bytes := rfl

theorem walBytes_of_some {fs : Files} {f : File} (hf : fs.wal = some f) : fs.walBytes = f.bytes := by
  simp [Files.walBytes, hf]

section Append

variable {f : File}

/-- all bytes are appended, or a part of them and the call fails -/
theorem wp_writeAll {Q : Bool → Sys → Prop} {bs : Bytes} (hfd : s.wal.fd = true) (hf : s.files.wal = some f)
    (hok : ∀ f' l k, s.kern.Later k → f'.bytes = f.bytes ++ bs → Q true ⟨s.files.withWal f', s.wal, l, k⟩)
    (hfail : ∀ p f' l k, s.kern.Later k → p <+: bs → p ≠ bs → f'.bytes = f.bytes ++ p →
      Q false ⟨s.files.withWal f', s.wal, l, k⟩)
    (hc : ∀ p f', s.kern.crashIn ≠ none → p <+: bs → p ≠ bs → f'.bytes = f.bytes ++ p → D (s.files.withWal f')) :
    wp (writeAll bs) Q (fun s' => D s'.files) s := by
  unfold writeAll
  rw [wp_bind, wp_get, if_neg (by simp [hfd]), wp_bind]
  refine wp_writeAllToFd le_rfl (fun fs k hk happ => ?_) (fun p fs k hk hp hne happ _ => ?_)
    (fun p fs hcr hp hne happ => ?_)
  · obtain ⟨f', rfl, hb⟩ := happ.wal hf
    exact hok f' _ k hk hb
  · obtain ⟨f', rfl, hb⟩ := happ.wal hf
    dsimp only
    rw [wp_bind]
    exact wp_queueErrno fun l => hfail p f' l k hk hp hne hb
  · obtain ⟨f', rfl, hb⟩ := happ.wal hf
    exact hc p f' hcr hp hne hb

/-- the length and the data are appended, or a part of them which is no record -/
theorem wp_writeRecord {Q : Bool → Sys → Prop} {data : Payload} (hfd : s.wal.fd = true) (hf : s.files.wal = some f)
    (hne : data.bytes ≠ [])
    (hok : ∀ f' l k, s.kern.Later k → f'.bytes = f.bytes ++ frame lenSize data.bytes →
      Q true ⟨s.files.withWal f', s.wal, l, k⟩)
    (hfail : ∀ p f' l k, s.kern.Later k → p <+: frame lenSize data.bytes → p ≠ frame lenSize data.bytes →
      f'.bytes = f.bytes ++ p → Q false ⟨s.files.withWal f', s.wal, l, k⟩)
    (hc : ∀ p f', s.kern.crashIn ≠ none → p <+: frame lenSize data.bytes → p ≠ frame lenSize data.bytes →
      f'.bytes = f.bytes ++ p → D (s.files.withWal f')) :
    wp (writeRecord data) Q (fun s' => D s'.files) s := by
  -- a prefix of the length is a proper prefix of the record
  have hhead : ∀ p, p <+: leBytes lenSize data.bytes.length →
      p <+: frame lenSize data.bytes ∧ p ≠ frame lenSize data.bytes := by
    intro p hp
    refine ⟨hp.trans (List.prefix_append _ _), fun heq => ?_⟩
    have hle := hp.length_le
    have hpos : 0 < data.bytes.length := List.length_pos_iff.2 hne
    rw [heq, length_frame, length_leBytes] at hle
    omega
  have hdata : ∀ p, p <+: data.bytes → p ≠ data.bytes →
      leBytes lenSize data.bytes.length ++ p <+: frame lenSize data.bytes ∧
        leBytes lenSize data.bytes.length ++ p ≠ frame lenSize data.bytes := by
    intro p hp hpne
    exact ⟨(List.prefix_append_right_inj _).2 hp, fun heq => hpne (List.append_cancel_left heq)⟩
  unfold writeRecord
  rw [wp_bind]
  refine wp_writeAll hfd hf (fun f1 l k hk hb => ?_) (fun p f1 l k hk hp _ hb => ?_) (fun p f1 hcr hp _ hb => ?_)
  · refine wp_writeAll (s := ⟨s.files.withWal f1, s.wal, l, k⟩) hfd rfl (fun f2 l2 k2 hk2 hb2 => ?_)
      (fun p f2 l2 k2 hk2 hp hpne hb2 => ?_) (fun p f2 hcr hp hpne hb2 => ?_)
    · exact hok f2 l2 k2 (hk.trans hk2) (by rw [hb2, hb, frame, List.append_assoc])
    · obtain ⟨h1, h2⟩ := hdata p hp hpne
      exact hfail _ f2 l2 k2 (hk.trans hk2) h1 h2 (by rw [hb2, hb, List.append_assoc])
    · obtain ⟨h1, h2⟩ := hdata p hp hpne
      exact hc _ f2 (fun h0 => hcr (hk.alive h0)) h1 h2 (by rw [hb2, hb, List.append_assoc])
  · obtain ⟨h1, h2⟩ := hhead p hp
    exact hfail p f1 l k hk h1 h2 hb
  · obtain ⟨h1, h2⟩ := hhead p hp
    exact hc p f1 hcr h1 h2 hb

/-- an append stores the record as a whole, or nothing of it stays, unless the rollback fails as well -/
theorem wp_append {Q : Bool → Sys → Prop} {data : Payload} (hopen : s.wal.fd = true → ∃ f, s.files.wal = some f)
    (hempty : data.bytes = [] → Q true s)
    (hstored : s.wal.fd = true → data.bytes ≠ [] → ∀ f' l k, s.kern.Later k →
      f'.bytes = s.files.walBytes ++ frame lenSize data.bytes →
      (0 < s.wal.maxSize → f'.bytes.length ≤ s.wal.maxSize) →
      Q true ⟨s.files.withWal f', { s.wal with fullLogged := false, pendingReplay := true }, l, k⟩)
    (hrefused : data.bytes ≠ [] → ∀ b l k, s.kern.Later k → Q false ⟨s.files, { s.wal with fullLogged := b }, l, k⟩)
    (htorn : s.wal.fd = true → data.bytes ≠ [] → ∀ p f' l k, s.kern.Later k → s.kern.oracle .rollback ≠ [] →
      p <+: frame lenSize data.bytes → p ≠ frame lenSize data.bytes → f'.bytes = s.files.walBytes ++ p →
      Q false ⟨s.files.withWal f', s.wal, l, k⟩)
    (hc : s.kern.crashIn ≠ none → D s.files ∧
      (s.wal.fd = true → data.bytes ≠ [] → ∀ p f', p <+: frame lenSize data.bytes →
      p ≠ frame lenSize data.bytes → f'.bytes = s.files.walBytes ++ p → D (s.files.withWal f'))) :
    wp (append data) Q (fun s' => D s'.files) s := by
  unfold append
  rw [wp_ite]
  refine ⟨fun h0 => hempty (List.length_eq_zero_iff.1 h0), fun h0 => wp_locked ?_⟩
  have hne : data.bytes ≠ [] := fun h => h0 (by rw [h]; rfl)
  have hsame : ∀ l k, s.kern.Later k → Q false ⟨s.files, s.wal, l, k⟩ :=
    fun l k hk => hrefused hne s.wal.fullLogged l k hk
  unfold appendRecord
  rw [wp_bind, wp_get, wp_ite]
  refine ⟨fun _ l => hsame l _ (.refl _), fun hfd => ?_⟩
  have hfd : s.wal.fd = true := by simpa using hfd
  obtain ⟨f, hf⟩ := hopen hfd
  have hwb := walBytes_of_some hf
  rw [wp_bind]
  refine wp_attempt (fun k hk => ?_) (fun k hk _ _ => ?_) (fun hcr => (hc hcr).1)
  · dsimp only
    rw [wp_ite]
    refine ⟨fun _ => ?_, fun hroom => ?_⟩
    · rw [wp_ite]
      refine ⟨fun _ => ?_, fun _ l => hsame l k hk⟩
      rw [wp_bind, wp_setWal, wp_bind]
      exact wp_queueLine fun _ l => hrefused hne true l k hk
    · rw [wp_bind]
      refine wp_writeRecord (s := ⟨s.files, s.wal, s.log, k⟩) hfd hf hne (fun f' l k' hk' hb => ?_)
        (fun p f' l k' hk' hp hpne hb => ?_) (fun p f' hcr hp hpne hb => ?_)
      · dsimp only
        rw [wp_bind, wp_setWal]
        intro l'
        refine hstored hfd hne f' l' k' (hk.trans hk') (by rw [hwb, hb]) fun hmax => ?_
        have hlen := data.len_lt
        have hle := s.files.walBytes_le
        have hbig : offMax + 2 ^ 33 < 2 ^ 64 := by decide
        have h4 : lenSize = 4 := rfl
        have hadd : add64 (add64 s.files.walBytes.length lenSize) data.bytes.length =
            s.files.walBytes.length + lenSize + data.bytes.length := by
          rw [add64_of_lt (a := s.files.walBytes.length) (by omega)]
          exact add64_of_lt (by omega)
        rw [hadd] at hroom
        rw [hb, List.length_append, length_frame, ← hwb]
        omega
      · -- the rollback
        have hgone : (s.files.withWal f').truncated s.files.walBytes.length = s.files := by
          refine withWal_self hf ?_
          show f'.bytes.take _ = _
          rw [hb, hwb, List.take_left' rfl]
        dsimp only
        unfold removePartial ftruncate
        rw [wp_bind, wp_bind, wp_bind]
        refine wp_attempt (fun k'' hk'' => ?_) (fun k'' hk'' ho _ => ?_) (fun hcr => ?_)
        · intro l
          show Q false ⟨(s.files.withWal f').truncated s.files.walBytes.length, s.wal, l, k''⟩
          rw [hgone]
          exact hsame l k'' ((hk.trans hk').trans hk'')
        · dsimp only
          rw [wp_pure]
          refine wp_queueErrno fun _ l => ?_
          exact htorn hfd hne p f' l k'' ((hk.trans hk').trans hk'') (fun h0 => ho ((hk.trans hk').reliable h0)) hp hpne
            (by rw [hb, hwb])
        · exact (hc fun h0 => hcr ((hk.trans hk').alive h0)).2 hfd hne p f' hp hpne (by rw [hb, hwb])
      · exact (hc fun h0 => hcr (hk.alive h0)).2 hfd hne p f' hp hpne (by rw [hb, hwb])
  · dsimp only
    rw [wp_bind]
    exact wp_queueErrno fun _ l => hsame l k hk

end Append

/-! ## Taking records out -/

/-- the position which a replay or a peek takes: the one of the commit file, or 0 after a failure -/
def Takes (s : Sys) (offset : ℕ) : Prop :=
  StartsAt s.files.walBytes s.files.commitValue s.wal.commitChecked offset ∨
    (offset = 0 ∧ ∃ c ∈ positionCalls, s.kern.oracle c ≠ [])

theorem Takes.le {offset : ℕ} (h : Takes s offset) : offset ≤ s.files.walBytes.length := by
  rcases h with (⟨-, h⟩ | ⟨h, -, h'⟩ | ⟨h, -, -, h'⟩ | ⟨-, -, -, h⟩) | ⟨h, -⟩ <;> omega

theorem wp_replayStart {Q : Option ReplayVars → Sys → Prop}
    (hok : s.wal.replaying = false → ∀ offset l k, s.kern.Later k → Takes s offset →
      Q (some { newOffset := offset }) ⟨s.files, { s.wal with replaying := true, commitChecked := true }, l, k⟩)
    (hno : s.wal.replaying = true ∨ s.files.wal = none ∨ s.kern.oracle .openRead ≠ [] ∨ s.kern.oracle .fstat ≠ [] →
      ∀ l k, s.kern.Later k → Q none ⟨s.files, s.wal, l, k⟩)
    (hc : s.kern.crashIn ≠ none → D s.files) : wp replayStart Q (fun s' => D s'.files) s := by
  unfold replayStart
  refine wp_locked ?_
  rw [wp_bind, wp_get, wp_ite]
  refine ⟨fun hr l => hno (Or.inl hr) l _ (.refl _), fun hr => ?_⟩
  have hr : s.wal.replaying = false := by simpa using hr
  have hback : { s.wal with replaying := false } = s.wal := by rw [← hr]
  rw [wp_bind, wp_setWal, wp_bind]
  refine wp_attempt (fun k hk => ?_) (fun k hk ho _ => ?_) hc
  · dsimp only
    cases hw : s.files.wal with
    | none =>
      intro l
      show Q none ⟨s.files, { s.wal with replaying := false }, l, k⟩
      rw [hback]
      exact hno (Or.inr (Or.inl hw)) l k hk
    | some f =>
      dsimp only
      rw [wp_bind]
      refine wp_getFileSize (fun k' hk' => ?_) (fun k' hk' ho => ?_) (fun hcr => hc fun h0 => hcr (hk.alive h0))
      · dsimp only
        rw [wp_bind]
        refine wp_getReplayPosition rfl (fun offset l k'' hk'' hst l' => ?_) (fun l k'' hk'' ho l' => ?_)
          (fun hcr => hc fun h0 => hcr ((hk.trans hk').alive h0))
        · exact hok hr offset l' k'' ((hk.trans hk').trans hk'') (Or.inl hst)
        · obtain ⟨c, hcm, ho⟩ := ho
          exact hok hr 0 l' k'' ((hk.trans hk').trans hk'')
            (Or.inr ⟨rfl, c, hcm, fun h0 => ho ((hk.trans hk').reliable h0)⟩)
      · dsimp only
        rw [wp_bind]
        refine wp_queueErrno fun l => ?_
        intro l'
        show Q none ⟨s.files, { s.wal with replaying := false }, l', k'⟩
        rw [hback]
        exact hno (Or.inr (Or.inr (Or.inr fun h0 => ho (hk.reliable h0)))) l' k' (hk.trans hk')
  · intro l
    show Q none ⟨s.files, { s.wal with replaying := false }, l, k⟩
    rw [hback]
    exact hno (Or.inr (Or.inr (Or.inl ho))) l k hk

/-- a round of `Replay`: a record for the consumer, or the end of the loop -/
theorem wp_replayRead {Q : ReplayVars × Option Bytes → Sys → Prop} {v : ReplayVars}
    (hrecord : ∀ r rest, parseFrame lenSize (s.files.walBytes.drop v.newOffset) = some (r, rest) →
      v.newOffset + (lenSize + r.length) ≤ s.files.walBytes.length →
      ∀ l k, s.kern.Later k → Q ({ v with clearOk := true }, some r) ⟨s.files, s.wal, l, k⟩)
    (hclear : ∀ fs, (v.newOffset = s.files.walBytes.length ∧ fs = s.files ∨
        v.newOffset < s.files.walBytes.length ∧ fs = s.files.quarantined (s.files.walBytes.drop v.newOffset) ∧
          (parseFrame lenSize (s.files.walBytes.drop v.newOffset) = none ∨
            ∃ n, Fault.short n ∈ s.kern.oracle .preadLen)) →
      ∀ l k, s.kern.Later k →
        wp clearInternal (fun b s' => ∀ l, Q ({ v with cleared := true, clearOk := b }, none)
          ⟨s'.files, s'.wal, l, s'.kern⟩) (fun s' => D s'.files) ⟨fs, s.wal, l, k⟩)
    (hchanged : s.files.walBytes.length < v.newOffset → ∀ l k, s.kern.Later k →
      Q ({ v with changed := true, clearOk := true }, none) ⟨s.files, s.wal, l, k⟩)
    (hstop : ∀ q l k, s.kern.Later k → (∃ c ∈ readCalls, s.kern.oracle c ≠ []) →
      Q ({ v with clearOk := true }, none) ⟨{ s.files with corrupt := q }, s.wal, l, k⟩)
    (hc : s.kern.crashIn ≠ none → ∀ q, D { s.files with corrupt := q }) :
    wp (replayRead v) Q (fun s' => D s'.files) s := by
  unfold replayRead
  refine wp_locked ?_
  rw [wp_bind]
  refine wp_readRecord (fun r rest hp hle l k hk l' => hrecord r rest hp hle l' k hk) (fun heq l k hk => ?_)
    (fun hlt hwhy l k hk => ?_) (fun hlt l k hk l' => hchanged hlt l' k hk)
    (fun q l k hk ho l' => hstop q l' k hk ho) hc
  · exact hclear s.files (Or.inl ⟨heq, rfl⟩) l k hk
  · exact hclear _ (Or.inr ⟨hlt, rfl, hwhy⟩) l k hk

/-- the position behind the last record which was accepted is stored, unless the WAL was emptied or changed -/
theorem wp_replayEnd {Q : Bool → Sys → Prop} {v : ReplayVars}
    (hclear : v.cleared = true → ∀ l, Q v.clearOk ⟨s.files, { s.wal with replaying := false }, l, s.kern⟩)
    (hno : v.cleared = false → v.changed = true ∨ v.didReplay = false →
      ∀ l, Q false ⟨s.files, { s.wal with replaying := false }, l, s.kern⟩)
    (hstore : v.cleared = false → v.changed = false → v.didReplay = true →
      ∀ l, wp (storeCommit v.newOffset) (fun b s' => ∀ l, Q b ⟨s'.files, s'.wal, l, s'.kern⟩) (fun s' => D s'.files)
        ⟨s.files, { s.wal with replaying := false }, l, s.kern⟩) :
    wp (replayEnd v) Q (fun s' => D s'.files) s := by
  unfold replayEnd
  refine wp_locked ?_
  rw [wp_bind, wp_setWal, wp_ite]
  refine ⟨fun hcl l => hclear hcl l, fun hcl => ?_⟩
  have hcl : v.cleared = false := by simpa using hcl
  rw [wp_ite]
  refine ⟨fun hch l => hno hcl (Or.inl hch) l, fun hch => ?_⟩
  have hch : v.changed = false := by simpa using hch
  rw [wp_ite]
  refine ⟨fun hd => ?_, fun hd l => hno hcl (Or.inr (by simpa using hd)) l⟩
  rw [wp_bind]
  refine wp_mono (hstore hcl hch hd s.log) (fun b s' h => ?_) fun _ h => h
  cases b <;> exact h

/-- the calls whose failure makes `Peek` return nothing -/
def peekCalls : List Call := .openRead :: .fstat :: readCalls

theorem wp_peek {Q : Option Bytes → Sys → Prop}
    (hno : (s.wal.fd = false ∨ s.wal.replaying = true ∨ s.wal.pendingReplay = false ∨
        ∃ c ∈ peekCalls, s.kern.oracle c ≠ []) →
      ∀ q b l k, s.kern.Later k → (s.wal.commitChecked = true → b = true) →
        Q none ⟨{ s.files with corrupt := q }, { s.wal with peeked := false, commitChecked := b }, l, k⟩)
    (hrecord : s.wal.fd = true → s.wal.replaying = false → s.wal.pendingReplay = true →
      ∀ offset r rest l k, s.kern.Later k → Takes s offset →
        parseFrame lenSize (s.files.walBytes.drop offset) = some (r, rest) →
        offset + (lenSize + r.length) ≤ s.files.walBytes.length →
        Q (some r) ⟨s.files, { s.wal with
          commitChecked := true, peeked := true, peekOffset := offset, peekLen := r.length,
          peekEpoch := s.wal.positionEpoch }, l, k⟩)
    (hclear : s.wal.fd = true → s.wal.replaying = false → s.wal.pendingReplay = true →
      ∀ offset, Takes s offset → ∀ fs, (offset = s.files.walBytes.length ∧ fs = s.files ∨
        offset < s.files.walBytes.length ∧ fs = s.files.quarantined (s.files.walBytes.drop offset) ∧
          (parseFrame lenSize (s.files.walBytes.drop offset) = none ∨ ∃ n, Fault.short n ∈ s.kern.oracle .preadLen)) →
      ∀ l k, s.kern.Later k →
        wp clearInternal (fun _ s' => ∀ l, Q none ⟨s'.files, s'.wal, l, s'.kern⟩) (fun s' => D s'.files)
          ⟨fs, { s.wal with peeked := false, commitChecked := true }, l, k⟩)
    (hc : s.kern.crashIn ≠ none → ∀ q, D { s.files with corrupt := q }) :
    wp peek Q (fun s' => D s'.files) s := by
  unfold peek
  refine wp_locked ?_
  rw [wp_bind, wp_setWal, wp_bind, wp_get, wp_ite]
  refine ⟨fun hwhy l => ?_, fun hgo => ?_⟩
  · refine hno ?_ s.files.corrupt s.wal.commitChecked l s.kern (.refl _) id
    rcases hwhy with h | h | h
    · exact Or.inl h
    · exact Or.inr (Or.inl h)
    · exact Or.inr (Or.inr (Or.inl h))
  · have hfd : s.wal.fd = true := by
      by_contra h; exact hgo (Or.inl (by simpa using h))
    have hr : s.wal.replaying = false := by
      by_contra h; exact hgo (Or.inr (Or.inl (by simpa using h)))
    have hp : s.wal.pendingReplay = true := by
      by_contra h; exact hgo (Or.inr (Or.inr (by simpa using h)))
    have hdc : ∀ {k : Kernel}, s.kern.Later k → k.crashIn ≠ none → D s.files :=
      fun hk hcr => hc (fun h0 => hcr (hk.alive h0)) s.files.corrupt
    have hno' : ∀ c ∈ peekCalls, s.kern.oracle c ≠ [] → ∀ q b l k, s.kern.Later k →
        (s.wal.commitChecked = true → b = true) →
        Q none ⟨{ s.files with corrupt := q }, { s.wal with peeked := false, commitChecked := b }, l, k⟩ :=
      fun c hcm ho => hno (Or.inr (Or.inr (Or.inr ⟨c, hcm, ho⟩)))
    rw [wp_bind]
    refine wp_attempt (fun k hk => ?_) (fun k hk ho _ => ?_) (fun hcr => hdc (.refl _) hcr)
    · dsimp only
      rw [wp_bind]
      refine wp_getFileSize (fun k' hk' => ?_) (fun k' hk' ho => ?_) (fun hcr => hdc hk hcr)
      · have hl := hk.trans hk'
        -- the record at the position
        have hread : ∀ offset, Takes s offset → ∀ l k, s.kern.Later k → wp (peekRecord offset)
            (fun a s' => ∀ l, Q a ⟨s'.files, s'.wal, l, s'.kern⟩) (fun s' => D s'.files)
            ⟨s.files, { s.wal with peeked := false, commitChecked := true }, l, k⟩ := by
          intro offset ht l k hk
          unfold peekRecord
          rw [wp_bind]
          refine wp_readRecord (fun r rest hparse hle l k' hk' l' => ?_) (fun heq l k' hk' => ?_)
            (fun hlt hwhy l k' hk' => ?_) (fun hlt => ?_) (fun q l k' hk' ho l' => ?_)
            (fun hcr => hc fun h0 => hcr (hk.alive h0))
          · exact hrecord hfd hr hp offset r rest l' k' (hk.trans hk') ht hparse hle
          · exact hclear hfd hr hp offset ht s.files (Or.inl ⟨heq, rfl⟩) l k' (hk.trans hk')
          · refine hclear hfd hr hp offset ht _ (Or.inr ⟨hlt, rfl, hwhy.imp_right ?_⟩) l k' (hk.trans hk')
            exact Exists.imp fun n hn => (hk.calls _).subset hn
          · exact absurd ht.le (by simpa using hlt)
          · obtain ⟨c, hcm, ho⟩ := ho
            exact hno' c (List.mem_cons_of_mem _ (List.mem_cons_of_mem _ hcm)) (fun h0 => ho (hk.reliable h0)) q true l'
              k' (hk.trans hk') fun _ => rfl
        dsimp only
        rw [wp_bind]
        refine wp_getReplayPosition rfl (fun offset l k'' hk'' hst => ?_) (fun l k'' hk'' ho => ?_)
          (fun hcr => hdc hl hcr)
        · exact hread offset (Or.inl hst) l k'' (hl.trans hk'')
        · obtain ⟨c, hcm, ho⟩ := ho
          exact hread 0 (Or.inr ⟨rfl, c, hcm, fun h0 => ho (hl.reliable h0)⟩) l k'' (hl.trans hk'')
      · dsimp only
        rw [wp_bind]
        refine wp_queueErrno fun _ l => ?_
        exact hno' .fstat (by simp [peekCalls]) (fun h0 => ho (hk.reliable h0)) s.files.corrupt s.wal.commitChecked l k'
          (hk.trans hk') id
    · dsimp only
      rw [wp_bind]
      refine wp_queueErrno fun _ l => ?_
      exact hno' .openRead (by simp [peekCalls]) ho s.files.corrupt s.wal.commitChecked l k hk id

/-- the record of the last `Peek` is taken out, unless the WAL has changed since then -/
theorem wp_ack {Q : Bool → Sys → Prop}
    (hno : (s.wal.peeked = false ∨ s.wal.fd = false ∨ s.wal.replaying = true ∨
        s.wal.peekEpoch ≠ s.wal.positionEpoch ∨ s.kern.oracle .fstat ≠ [] ∨
        s.files.walBytes.length < s.wal.peekOffset + lenSize + s.wal.peekLen) →
      ∀ l k, s.kern.Later k → Q false ⟨s.files, { s.wal with peeked := false }, l, k⟩)
    (hclear : s.wal.peeked = true → s.wal.fd = true → s.wal.replaying = false →
      s.wal.peekEpoch = s.wal.positionEpoch →
      s.wal.peekOffset + lenSize + s.wal.peekLen = s.files.walBytes.length → ∀ l k, s.kern.Later k →
      wp clearInternal (fun b s' => ∀ l, Q b ⟨s'.files, s'.wal, l, s'.kern⟩) (fun s' => D s'.files)
        ⟨s.files, { s.wal with peeked := false }, l, k⟩)
    (hstore : s.wal.peeked = true → s.wal.fd = true → s.wal.replaying = false →
      s.wal.peekEpoch = s.wal.positionEpoch →
      s.wal.peekOffset + lenSize + s.wal.peekLen < s.files.walBytes.length → ∀ l k, s.kern.Later k →
      wp (storeCommit (s.wal.peekOffset + lenSize + s.wal.peekLen))
        (fun b s' => ∀ l, Q b ⟨s'.files, s'.wal, l, s'.kern⟩) (fun s' => D s'.files)
        ⟨s.files, { s.wal with peeked := false }, l, k⟩)
    (hc : s.kern.crashIn ≠ none → D s.files) : wp ack Q (fun s' => D s'.files) s := by
  unfold ack
  refine wp_locked ?_
  rw [wp_bind, wp_get, wp_ite]
  refine ⟨fun hp l => ?_, fun hp => ?_⟩
  · have hsame : { s.wal with peeked := false } = s.wal := by rw [← hp]
    have := hno (Or.inl hp) l s.kern (.refl _)
    rwa [hsame] at this
  · have hp : s.wal.peeked = true := by simpa using hp
    rw [wp_bind, wp_setWal, wp_ite]
    refine ⟨fun hwhy l => hno ?_ l s.kern (.refl _), fun hgo => ?_⟩
    · rcases hwhy with h | h | h
      · exact Or.inr (Or.inl h)
      · exact Or.inr (Or.inr (Or.inl h))
      · exact Or.inr (Or.inr (Or.inr (Or.inl h)))
    · have hfd : s.wal.fd = true := by
        by_contra h; exact hgo (Or.inl (by simpa using h))
      have hr : s.wal.replaying = false := by
        by_contra h; exact hgo (Or.inr (Or.inl (by simpa using h)))
      have he : s.wal.peekEpoch = s.wal.positionEpoch := by
        by_contra h; exact hgo (Or.inr (Or.inr h))
      rw [wp_bind]
      refine wp_getFileSize (fun k hk => ?_) (fun k hk ho l => ?_) hc
      · dsimp only
        rw [wp_ite]
        refine ⟨fun hlt l => ?_, fun hle => ?_⟩
        · exact hno (Or.inr (Or.inr (Or.inr (Or.inr (Or.inr hlt))))) l k hk
        · rw [wp_ite]
          refine ⟨fun heq => hclear hp hfd hr he heq _ k hk, fun hne => ?_⟩
          exact hstore hp hfd hr he (by omega) _ k hk
      · exact hno (Or.inr (Or.inr (Or.inr (Or.inr (Or.inl ho))))) l k hk

/-! ## Opening and closing -/

/-- what `Init` leaves of an object which was not open -/
def SimpleWal.opened (w : SimpleWal) (fd hasLock pending : Bool) : SimpleWal :=
  { w with
    fd := fd
    hasLock := hasLock
    commitChecked := false
    pendingReplay := pending
    peeked := false
    fullLogged := false }

/-- the object after its descriptor was closed -/
def SimpleWal.closed (w : SimpleWal) : SimpleWal := { w with pendingReplay := false, fd := false, hasLock := false }

/-- the files behind the `open` and the `flock` of `Init` -/
def Files.opened (fs : Files) (gotLock : Bool) : Files :=
  { fs with wal := some (fs.wal.getD File.empty), locked := fs.locked || gotLock }

@[simp] theorem walBytes_opened (fs : Files) (b : Bool) : (fs.opened b).walBytes = fs.walBytes := by
  cases h : fs.wal <;> simp [Files.walBytes, Files.opened, h]

theorem wp_closeOld {Q : Unit → Sys → Prop} {C : Sys → Prop} (hnew : s.wal.fd = false) (h : Q () s) :
    wp closeOld Q C s := by
  unfold closeOld
  rw [wp_bind, wp_get, if_neg (by simp [hnew])]
  exact h

theorem wp_flock {Q : Bool → Sys → Prop}
    (hok : s.files.locked = false → ∀ k, s.kern.Later k →
      Q true ⟨{ s.files with locked := true }, { s.wal with hasLock := true }, s.log, k⟩)
    (hused : s.files.locked = true → ∀ k, s.kern.Later k → k.errno = .EWOULDBLOCK →
      Q false ⟨s.files, s.wal, s.log, k⟩)
    (hfail : ∀ k, s.kern.Later k → s.kern.oracle .flock ≠ [] → k.errno ≠ .EWOULDBLOCK →
      Q false ⟨s.files, s.wal, s.log, k⟩)
    (hc : s.kern.crashIn ≠ none → D s.files) : wp flock Q (fun s' => D s'.files) s := by
  unfold flock
  rw [wp_bind]
  refine wp_attempt (fun k hk => ?_) (fun k hk ho he => hfail k hk ho ?_) hc
  · dsimp only
    rw [wp_bind, wp_get, wp_ite]
    refine ⟨fun hl => hused hl _ (hk.errno _) rfl, fun hl => ?_⟩
    exact hok (by simpa using hl) k hk
  · obtain ⟨code, he⟩ := he
    rw [he]; simp

theorem wp_init {Q : Bool → Sys → Prop} (hnew : s.wal.fd = false) (hno : s.wal.hasLock = false)
    (hok : ∀ gotLock pending l k, s.kern.Later k → (gotLock = true → s.files.locked = false) →
      (gotLock = false → s.kern.oracle .flock ≠ []) →
      (pending = false → s.files.walBytes = [] ∨ s.kern.oracle .fstat ≠ []) → (pending = true → s.files.walBytes ≠ []) →
      Q true ⟨s.files.opened gotLock, s.wal.opened true gotLock pending, l, k⟩)
    (hused : s.files.locked = true → ∀ l k, s.kern.Later k →
      Q false ⟨s.files.opened false, s.wal.opened false false false, l, k⟩)
    (hfail : ∀ l k, s.kern.Later k → s.kern.oracle .openWal ≠ [] →
      Q false ⟨s.files, s.wal.opened false false false, l, k⟩)
    (hc : s.kern.crashIn ≠ none → D s.files ∧ ∀ b, D (s.files.opened b)) :
    wp init Q (fun s' => D s'.files) s := by
  have hclosed : { s.wal with commitChecked := false, pendingReplay := false, peeked := false, fullLogged := false } =
      s.wal.opened false false false := by
    simp [SimpleWal.opened, hnew, hno]
  unfold init
  refine wp_locked ?_
  rw [wp_bind]
  refine wp_closeOld hnew ?_
  rw [wp_bind, wp_setWal, hclosed, wp_bind]
  refine wp_attempt (fun k hk => ?_) (fun k hk ho _ => ?_) (fun hcr => (hc hcr).1)
  · have hdc : ∀ {k'}, k.Later k' → k'.crashIn ≠ none → ∀ b, D (s.files.opened b) :=
      fun hk' hcr => (hc fun h0 => hcr ((hk.trans hk').alive h0)).2
    have hopen : Files.opened s.files false = { s.files with wal := some (s.files.wal.getD File.empty) } := by
      simp [Files.opened]
    -- behind the lock
    have hrest : ∀ gotLock k', k.Later k' → (gotLock = true → s.files.locked = false) →
        (gotLock = false → s.kern.oracle .flock ≠ []) →
        (gotLock = false → k'.errno ≠ .EWOULDBLOCK) →
        wp (Prog.get >>= fun s => if gotLock = false ∧ s.kern.errno = .EWOULDBLOCK then do
            queueError .inUse
            closeFd
            pure false
          else do
            reportLock gotLock
            restrictMode .fchmod .cannotRestrictWal
            let size ← getFileSize
            setWal fun w => { w with pendingReplay := decide (0 < size.getD 0) }
            pure true)
          (fun a s' => ∀ l, Q a ⟨s'.files, s'.wal, l, s'.kern⟩) (fun s' => D s'.files)
          ⟨s.files.opened gotLock, s.wal.opened true gotLock false, s.log, k'⟩ := by
      intro gotLock k' hk' hgot hnot herr
      rw [wp_bind, wp_get, if_neg fun h => herr h.1 h.2, wp_bind]
      have hreport : ∀ l, wp (do
            restrictMode .fchmod .cannotRestrictWal
            let size ← getFileSize
            setWal fun w => { w with pendingReplay := decide (0 < size.getD 0) }
            pure true)
          (fun a s' => ∀ l, Q a ⟨s'.files, s'.wal, l, s'.kern⟩) (fun s' => D s'.files)
          ⟨s.files.opened gotLock, s.wal.opened true gotLock false, l, k'⟩ := by
        intro l
        rw [wp_bind]
        refine wp_restrictMode (fun l k1 hk1 => ?_) fun hcr => hdc hk' hcr _
        rw [wp_bind]
        have hl1 : k.Later k1 := hk'.trans hk1
        refine wp_getFileSize (fun k2 hk2 => ?_) (fun k2 hk2 ho => ?_) fun hcr => hdc hl1 hcr _
        · rw [wp_bind, wp_setWal]
          intro l
          refine hok gotLock _ l k2 (hk.trans (hl1.trans hk2)) hgot hnot (fun hp => Or.inl ?_) fun hp hnil => ?_
          · rw [decide_eq_false_iff_not] at hp
            refine List.length_eq_zero_iff.1 (Nat.le_zero.1 (Nat.le_of_not_lt ?_))
            simpa using hp
          · have hlt : 0 < s.files.walBytes.length := by simpa using hp
            exact absurd (List.length_pos_iff.1 hlt) (not_not.2 hnil)
        · rw [wp_bind, wp_setWal]
          exact fun l => hok gotLock _ l k2 (hk.trans (hl1.trans hk2)) hgot hnot
            (fun _ => Or.inr fun h0 => ho ((hk.trans hl1).reliable h0)) fun hp => absurd hp (by decide)
      unfold reportLock
      rw [wp_ite]
      refine ⟨fun _ => ?_, fun _ => wp_queueErrno hreport⟩
      exact hreport _
    dsimp only
    rw [wp_bind, wp_setFiles, wp_bind, wp_setWal, wp_bind]
    refine wp_flock (fun hl k' hk' => ?_) (fun hl k' hk' he => ?_) (fun k' hk' ho he => ?_) fun hcr => ?_
    · have := hrest true k' hk' (fun _ => hl) (fun h => by cases h) (fun h => by cases h)
      rwa [Files.opened, Bool.or_true] at this
    · rw [wp_bind, wp_get, if_pos ⟨rfl, he⟩, wp_bind]
      refine wp_queueLine fun l => ?_
      rw [wp_bind]
      intro l
      have := hused hl l k' (hk.trans hk')
      rw [hopen] at this
      simpa [SimpleWal.opened] using this
    · have := hrest false k' hk' (fun h => by cases h) (fun _ h0 => ho (hk.reliable h0)) (fun _ => he)
      rwa [hopen] at this
    · have := hdc (.refl k) hcr false
      rwa [hopen] at this
  · rw [wp_bind]
    exact wp_queueErrno fun l l' => hfail l' k hk ho

theorem wp_unlinkWal {Q : Bool → Sys → Prop}
    (hok : ∀ k, s.kern.Later k → Q true ⟨{ s.files with wal := none }, s.wal, s.log, k⟩)
    (hfail : ∀ k, s.kern.Later k → Q false ⟨s.files, s.wal, s.log, k⟩)
    (hc : s.kern.crashIn ≠ none → D s.files) : wp unlinkWal Q (fun s' => D s'.files) s := by
  unfold unlinkWal
  rw [wp_bind]
  refine wp_attempt (fun k hk => ?_) (fun k hk _ _ => hfail k hk) hc
  rw [wp_bind, wp_get]
  cases hw : s.files.wal with
  | none => exact hfail _ (hk.errno _)
  | some f => exact hok k hk

/-- the files after a destructor: `wal` and `commit` are what is left, and the lock of `w` is gone -/
def Files.destroyed (fs : Files) (w : SimpleWal) (wal : Option File) (commit : Option Bytes) : Files :=
  { fs with wal := wal, commit := commit, locked := fs.locked && !w.hasLock }

/-- the destructor leaves the files as they are, or removes those of an empty WAL as far as it can -/
theorem wp_destroy {Q : Unit → Sys → Prop} (hfd : s.wal.fd = true)
    (hkeep : s.files.walBytes ≠ [] → ∀ k, s.kern.Later k →
      Q () ⟨s.files.destroyed s.wal s.files.wal s.files.commit, s.wal.closed, s.log, k⟩)
    (hremove : s.files.walBytes = [] ∨ s.kern.oracle .fstat ≠ [] → ∀ w c k, s.kern.Later k →
      (w = none ∨ w = s.files.wal) → (c = none ∨ c = s.files.commit) →
      Q () ⟨s.files.destroyed s.wal w c, s.wal.closed, s.log, k⟩)
    (hc : s.kern.crashIn ≠ none → D s.files ∧ (s.files.walBytes = [] ∨ s.kern.oracle .fstat ≠ [] →
      ∀ w, (w = none ∨ w = s.files.wal) → D (s.files.destroyed s.wal w s.files.commit))) :
    wp destroy Q (fun s' => D s'.files) s := by
  -- the two calls of `unlink`, which nothing checks
  have hunlink : s.files.walBytes = [] ∨ s.kern.oracle .fstat ≠ [] → ∀ k, s.kern.Later k →
      wp (do
        let _ ← unlinkWal
        let _ ← unlinkCommit
        pure ()) Q (fun s' => D s'.files)
        ⟨s.files.destroyed s.wal s.files.wal s.files.commit, s.wal.closed, s.log, k⟩ := by
    intro hwhy k hk
    have hcommit : ∀ w k', (w = none ∨ w = s.files.wal) → s.kern.Later k' →
        wp (unlinkCommit >>= fun _ => pure ()) Q (fun s' => D s'.files)
          ⟨s.files.destroyed s.wal w s.files.commit, s.wal.closed, s.log, k'⟩ := by
      intro w k' hw hk'
      rw [wp_bind]
      refine wp_unlinkCommit (fun k1 hk1 => ?_) (fun k1 hk1 _ _ => ?_) (fun k1 hk1 _ _ => ?_) fun hcr =>
        (hc fun h0 => hcr (hk'.alive h0)).2 hwhy w hw
      · exact hremove hwhy w none k1 (hk'.trans hk1) hw (Or.inl rfl)
      · exact hremove hwhy w _ k1 (hk'.trans hk1) hw (Or.inr rfl)
      · exact hremove hwhy w _ k1 (hk'.trans hk1) hw (Or.inr rfl)
    rw [wp_bind]
    refine wp_unlinkWal (fun k1 hk1 => ?_) (fun k1 hk1 => ?_) fun hcr =>
      (hc fun h0 => hcr (hk.alive h0)).2 hwhy _ (Or.inr rfl)
    · exact hcommit none k1 (Or.inl rfl) (hk.trans hk1)
    · exact hcommit _ k1 (Or.inr rfl) (hk.trans hk1)
  unfold destroy
  rw [wp_bind, wp_get, if_pos hfd, wp_bind]
  refine wp_getFileSize (fun k hk => ?_) (fun k hk ho => ?_) fun hcr => (hc hcr).1
  · rw [wp_bind, wp_setWal, wp_bind]
    show wp _ Q _ ⟨s.files.destroyed s.wal s.files.wal s.files.commit, s.wal.closed, s.log, k⟩
    cases hlen : s.files.walBytes.length with
    | zero => exact hunlink (Or.inl (List.length_eq_zero_iff.1 hlen)) k hk
    | succ n => exact hkeep (fun h => by rw [h] at hlen; cases hlen) k hk
  · exact hunlink (Or.inr ho) k hk

end DominoLogForwarder.Wal
