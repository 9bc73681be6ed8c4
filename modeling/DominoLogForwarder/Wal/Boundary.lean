/-
`IsRecordBoundary` (`simple_wal.cpp`): the walk over the lengths of the records, from the start of the WAL up to a
position.

`walkRound` is one round of the loop, and `Visited` are the positions which the loop comes to. The lengths are what is
in the file, and the arithmetic is the one of 64 bits: `Exact` says that a round computes the true numbers all the same.

- `walkRecords_round`: the rounds are the ones of the model of the code.
- `exact_of_visited`: the arithmetic is exact at every position which the walk comes to.
- `isRecordBoundary_exact`: the walk ends, and says whether whole records end at the position.
-/
import DominoLogForwarder.Wal.Spec

namespace DominoLogForwarder.Wal

open CrashProg Framing WalM

variable {bs : Bytes} {offset pos : ℕ}

/-! ## One round -/

inductive Round where
  | ended (answer : Bool)
  | next (pos : ℕ)
deriving DecidableEq

/-- a round of the loop, when the `pread` does not fail -/
def walkRound (bs : Bytes) (offset fileSize pos : ℕ) : Round :=
  if pos < offset then
    let len := (bs.drop pos).take lenSize
    if len.length ≠ lenSize then .ended false
    else if leNat len = 0 ∨ sub64 (sub64 fileSize pos) lenSize < leNat len then .ended false
    else .next (add64 pos (lenSize + leNat len))
  else .ended (pos == offset)

/-- the positions which the loop comes to -/
inductive Visited (bs : Bytes) (offset : ℕ) : ℕ → Prop where
  | start : Visited bs offset 0
  | next {pos pos' : ℕ} (h : Visited bs offset pos) (hnext : walkRound bs offset bs.length pos = .next pos') :
      Visited bs offset pos'

/-- what a round at this position computes: the position is in the file, and neither the space behind it nor the next
position leaves the file or the 64 bits -/
structure Exact (bs : Bytes) (pos : ℕ) : Prop where
  inside : pos ≤ bs.length
  space : pos + lenSize ≤ bs.length → sub64 (sub64 bs.length pos) lenSize + lenSize + pos = bs.length
  next : pos + lenSize ≤ bs.length → ∀ len ≤ sub64 (sub64 bs.length pos) lenSize,
    add64 pos (lenSize + len) = pos + lenSize + len ∧ pos + lenSize + len ≤ bs.length

theorem exact_of_le (hmax : bs.length ≤ offMax) (hpos : pos ≤ bs.length) : Exact bs pos := by
  have hbig : offMax < 2 ^ 63 := by decide
  have hspace : pos + lenSize ≤ bs.length → sub64 (sub64 bs.length pos) lenSize = bs.length - pos - lenSize := by
    intro hfit
    rw [sub64_of_le (by omega) hpos, sub64_of_le (by omega) (by omega)]
  refine ⟨hpos, fun hfit => ?_, fun hfit len hlen => ?_⟩
  · rw [hspace hfit]
    omega
  · rw [hspace hfit] at hlen
    rw [add64_of_lt (by omega)]
    omega

/-- a round which goes on has read a whole record -/
theorem round_next (hmax : bs.length ≤ offMax) (hpos : IsBoundary lenSize bs pos) {pos' : ℕ}
    (h : walkRound bs offset bs.length pos = .next pos') :
    pos < offset ∧ pos + 5 ≤ pos' ∧ IsBoundary lenSize bs pos' := by
  unfold walkRound at h
  dsimp only at h
  split_ifs at h with hlt hlen hbad
  have hlen' : ((bs.drop pos).take lenSize).length = lenSize := not_not.1 hlen
  have hfit : pos + lenSize ≤ bs.length := by
    rw [List.length_take, List.length_drop] at hlen'
    have := hpos.le
    omega
  have hexact := exact_of_le hmax hpos.le
  have hspace := hexact.space hfit
  rw [not_or, Nat.not_lt] at hbad
  obtain ⟨hadd, hle⟩ := hexact.next hfit _ hbad.2
  have hgood : ¬(leNat ((bs.drop pos).take lenSize) = 0 ∨
      (bs.drop pos).length - lenSize < leNat ((bs.drop pos).take lenSize)) := by
    rw [List.length_drop, not_or]
    exact ⟨hbad.1, by omega⟩
  have hparse := parseFrame_good hlen' hgood
  have hboundary := isBoundary_step hparse hpos
  have hlength : (((bs.drop pos).drop lenSize).take (leNat ((bs.drop pos).take lenSize))).length =
      leNat ((bs.drop pos).take lenSize) := by
    rw [List.length_take, List.length_drop, List.length_drop]
    omega
  obtain rfl := Round.next.inj h
  rw [hlength] at hboundary
  rw [hadd, Nat.add_assoc]
  have hfour : lenSize = 4 := rfl
  exact ⟨hlt, by omega, hboundary⟩

/-! ## All rounds -/

theorem visited_boundary (hmax : bs.length ≤ offMax) (h : Visited bs offset pos) : IsBoundary lenSize bs pos := by
  -- induction on the rounds
  induction h with
  | start => exact isBoundary_zero bs
  | next _ hnext ih => exact (round_next hmax ih hnext).2.2

theorem exact_of_visited (hmax : bs.length ≤ offMax) (h : Visited bs offset pos) : Exact bs pos :=
  exact_of_le hmax (visited_boundary hmax h).le

theorem pread_done {s : Sys} {c : Call} (hcalls : s.kern.oracle c = []) (halive : s.kern.crashIn = none) (len : ℕ) :
    pread c pos len s = .done (some ((s.files.walBytes.drop pos).take len)) s := by
  have hcall : syscall c s = .done .ok s := by
    unfold syscall
    rw [halive, hcalls]
    obtain ⟨files, wal, log, oracle, crashIn, errno⟩ := s
    cases halive
    rfl
  change Prog.bind (syscall c) _ s = _
  unfold Prog.bind
  rw [hcall]
  rfl

/-- the rounds are those of the model -/
theorem walkRecords_round {s : Sys} (hcalls : s.kern.oracle .preadWalk = []) (halive : s.kern.crashIn = none)
    (fileSize fuel : ℕ) : walkRecords offset fileSize (fuel + 1) pos s =
      match walkRound s.files.walBytes offset fileSize pos with
      | .ended answer => .done answer s
      | .next pos' => walkRecords offset fileSize fuel pos' s := by
  have hread : ∀ f : Option Bytes → WalM Bool,
      (pread .preadWalk pos lenSize >>= f) s = f (some ((s.files.walBytes.drop pos).take lenSize)) s := by
    intro f
    change Prog.bind (pread .preadWalk pos lenSize) f s = _
    unfold Prog.bind
    rw [pread_done hcalls halive]
  rw [walkRecords, walkRound]
  by_cases hlt : pos < offset
  · rw [if_pos hlt, if_pos hlt, hread]
    dsimp only
    split_ifs <;> rfl
  · rw [if_neg hlt, if_neg hlt]
    rfl

/-- the walk leaves everything as it is -/
theorem walkRecords_state {s s' : Sys} (hcalls : s.kern.oracle .preadWalk = []) (halive : s.kern.crashIn = none)
    {fileSize fuel : ℕ} {answer : Bool} (h : walkRecords offset fileSize fuel pos s = .done answer s') : s' = s := by
  induction fuel generalizing pos with
  | zero =>
    cases h
    rfl
  | succ fuel ih =>
    rw [walkRecords_round hcalls halive] at h
    cases hround : walkRound s.files.walBytes offset fileSize pos with
    | ended answer =>
      rw [hround] at h
      cases h
      rfl
    | next pos' =>
      rw [hround] at h
      exact ih h

/-- enough rounds give the answer -/
theorem walkRecords_answer {s : Sys} (hcalls : s.kern.oracle .preadWalk = [])
    (halive : s.kern.crashIn = none) {fuel : ℕ}
    (hfuel : offset ≤ fuel) : ∃ answer, (answer = true ↔ IsBoundary lenSize s.files.walBytes offset) ∧
      walkRecords offset s.files.walBytes.length fuel 0 s = .done answer s := by
  have hwp : wp (walkRecords offset s.files.walBytes.length fuel 0)
      (fun answer _ => answer = true ↔ IsBoundary lenSize s.files.walBytes offset) (fun _ => False) s := by
    have hrounds : offset ≤ 0 + fuel := by omega
    apply wp_walkRecords (D := fun _ => False) rfl (isBoundary_zero _) (fun _ => Nat.zero_le _) hrounds
    · intro answer _ _ hiff
      exact hiff
    · intro _ _ hno
      exact absurd hcalls hno
    · intro hno
      exact hno halive
  obtain ⟨answer, s', hrun, hiff⟩ := exists_of_wp hwp
  obtain rfl := walkRecords_state hcalls halive hrun
  exact ⟨answer, hiff, hrun⟩

/-- also when calls fail, a yes is right -/
theorem boundary_of_true {s s' : Sys} (h : isRecordBoundary offset s.files.walBytes.length s = .done true s') :
    IsBoundary lenSize s.files.walBytes offset := by
  have hwp : wp (isRecordBoundary offset s.files.walBytes.length)
      (fun answer _ => answer = true → IsBoundary lenSize s.files.walBytes offset) (fun _ => True) s := by
    apply wp_isRecordBoundary (D := fun _ => True) rfl
    · intro answer _ _ hiff
      exact hiff.1
    · intro _ _ _ hfalse
      exact absurd hfalse Bool.false_ne_true
    · intro _
      trivial
  rw [wp_of_done h] at hwp
  exact hwp rfl

/-- **The walk ends, and decides the boundaries exactly.** With any number of rounds from `offset` on, the answer is
the same, and it is yes exactly when whole records with a length which is not zero end at the position. At each
position which the loop comes to the arithmetic is exact and stays in the file, and each round moves the position. When
calls fail, a yes is still right. -/
theorem isRecordBoundary_exact (s : Sys) (hcalls : s.kern.oracle .preadWalk = []) (halive : s.kern.crashIn = none)
    (offset : ℕ) :
    (∃ answer, (answer = true ↔ IsBoundary lenSize s.files.walBytes offset) ∧
      isRecordBoundary offset s.files.walBytes.length s = .done answer s ∧
      ∀ fuel ≥ offset, walkRecords offset s.files.walBytes.length fuel 0 s = .done answer s) ∧
    (∀ fuel pos, walkRecords offset s.files.walBytes.length (fuel + 1) pos s =
      match walkRound s.files.walBytes offset s.files.walBytes.length pos with
      | .ended answer => .done answer s
      | .next pos' => walkRecords offset s.files.walBytes.length fuel pos' s) ∧
    (∀ pos, Visited s.files.walBytes offset pos → Exact s.files.walBytes pos ∧
      ∀ pos', walkRound s.files.walBytes offset s.files.walBytes.length pos = .next pos' → pos < pos') ∧
    ∀ kern s', isRecordBoundary offset s.files.walBytes.length { s with kern := kern } = .done true s' →
      IsBoundary lenSize s.files.walBytes offset := by
  have hmax := s.files.walBytes_le
  refine ⟨?_, fun fuel pos => walkRecords_round hcalls halive _ fuel, ?_, ?_⟩
  · obtain ⟨answer, hiff, hrun⟩ := walkRecords_answer hcalls halive (Nat.le_refl offset)
    refine ⟨answer, hiff, hrun, fun fuel hfuel => ?_⟩
    obtain ⟨answer', hiff', hrun'⟩ := walkRecords_answer hcalls halive hfuel
    obtain rfl : answer = answer' := Bool.eq_iff_iff.2 (hiff.trans hiff'.symm)
    exact hrun'
  · intro pos hpos
    refine ⟨exact_of_visited hmax hpos, fun pos' hnext => ?_⟩
    have hmoved := (round_next hmax (visited_boundary hmax hpos) hnext).2.1
    omega
  · intro kern s' hrun
    exact boundary_of_true (s := { s with kern := kern }) hrun

/-- a WAL with the record "a", and a length which is larger than the rest of the file -/
def damagedTail : Sys where
  files := { wal := some ⟨frame lenSize [97] ++ [255, 255, 255, 255, 0], by decide⟩ }
  wal := {}
  log := {}
  kern := ⟨fun _ => [], none, .unset⟩

theorem isRecordBoundary_damagedTail :
    (∃ answer, (answer = true ↔ IsBoundary lenSize damagedTail.files.walBytes 9) ∧
      isRecordBoundary 9 damagedTail.files.walBytes.length damagedTail = .done answer damagedTail) ∧
    Exact damagedTail.files.walBytes 5 := by
  obtain ⟨⟨answer, hiff, hrun, -⟩, -, hexact, -⟩ := isRecordBoundary_exact damagedTail rfl rfl 9
  exact ⟨⟨answer, hiff, hrun⟩, (hexact 5 (.next .start (by decide))).1⟩

end DominoLogForwarder.Wal
