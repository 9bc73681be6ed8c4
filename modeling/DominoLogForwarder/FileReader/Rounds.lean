/-
How long the loop of `ReadLine` runs, when no other program changes anything during the call.

A round reads at least one byte more, or it begins a new generation: the file starts again, or the reader goes to
another file. `Reader.MayTurn` is what makes a new generation possible, and nothing in the loop makes it true.
`roundsLeft` counts both together.

- `readLine_ends`: the loop ends after at most `roundsLeft` rounds, with at most one generation more
-/
import DominoLogForwarder.FileReader.Frozen
import DominoLogForwarder.FileReader.Order

namespace DominoLogForwarder.FileReader

open CrashProg Lines FrM
open Wal (File)

/-! ## What is left to do -/

/-- a new generation can begin: the open file has other content, or it was seen that the path leads to another file -/
def Reader.MayTurn (r : Reader) (d : Disk) (id : FileId) : Prop :=
  ¬ r.Like (d.files id).bytes ∨ r.rotationSeen = true ∧ (d.path.any fun node => decide (node.file ≠ r.file)) = true

instance (r : Reader) (d : Disk) (id : FileId) : Decidable (r.MayTurn d id) := by
  unfold Reader.MayTurn
  infer_instance

/-- how many bytes the file at the path has -/
def pathSize (d : Disk) : ℕ := d.path.elim 0 fun node => (d.files node.file).size

/-- how many rounds the loop makes at most: one for each byte which was not read, and those of a new generation -/
def roundsLeft (d : Disk) (r : Reader) : ℕ :=
  match r.fd with
  | none => pathSize d + 1
  | some id =>
    (d.files id).size - (r.bufferStart + r.pending) + 1 +
      if r.MayTurn d id then (d.files id).size + pathSize d + 1 else 0

/-- how many generations can begin -/
def turnsLeft (d : Disk) (r : Reader) : ℕ :=
  match r.fd with
  | none => 1
  | some id => if r.MayTurn d id then 1 else 0

section

variable {d : Disk} {r : Reader} {id : FileId}

theorem roundsLeft_none (h : r.fd = none) : roundsLeft d r = pathSize d + 1 := by
  rw [roundsLeft, h]

theorem roundsLeft_some (h : r.fd = some id) : roundsLeft d r =
    (d.files id).size - (r.bufferStart + r.pending) + 1 +
      if r.MayTurn d id then (d.files id).size + pathSize d + 1 else 0 := by
  rw [roundsLeft, h]

theorem turnsLeft_none (h : r.fd = none) : turnsLeft d r = 1 := by
  rw [turnsLeft, h]

theorem turnsLeft_some (h : r.fd = some id) : turnsLeft d r = if r.MayTurn d id then 1 else 0 := by
  rw [turnsLeft, h]

theorem turnsLeft_le : turnsLeft d r ≤ 1 := by
  unfold turnsLeft
  split
  · exact le_rfl
  · split_ifs <;> omega

theorem pathSize_node {node : Node} (h : d.path = some node) : pathSize d = (d.files node.file).size := by
  rw [pathSize, h]
  rfl

end

/-- the members on which it depends what is left to do -/
structure Reader.Alike (r r' : Reader) : Prop where
  fd : r'.fd = r.fd
  file : r'.file = r.file
  generation : r'.generation = r.generation
  head : r'.head = r.head
  rotationSeen : r'.rotationSeen = r.rotationSeen
  read : r'.bufferStart + r'.pending = r.bufferStart + r.pending

namespace Reader

variable {r r' : Reader}

theorem findNl_lt {idx : ℕ} (h : r.findNl = some idx) : r.pos ≤ idx ∧ idx < r.buffer.length := by
  unfold findNl at h
  obtain ⟨n, hn, rfl⟩ := Option.map_eq_some_iff.1 h
  obtain ⟨l, xs, hsplit, hlen, -⟩ := find_eq_some hn
  have hdrop := congrArg List.length hsplit
  rw [List.length_drop, List.length_append, List.length_cons] at hdrop
  omega

theorem takeLine_none_alike (h : r.takeLine = (none, r')) : r.Alike r' := by
  unfold takeLine at h
  cases hfind : r.findNl with
  | none =>
    rw [hfind] at h
    by_cases hlong : r.settings.maxLineLength < r.pending
    · simp [if_pos hlong] at h
    · simp only [if_neg hlong, Prod.mk.injEq, true_and] at h
      rw [← h]
      exact ⟨rfl, rfl, rfl, rfl, rfl, rfl⟩
  | some idx =>
    rw [hfind] at h
    simp at h

theorem extractLine_none_alike (h : r.extractLine = (none, r')) : r.Alike r' := by
  unfold extractLine at h
  by_cases hskip : r.skipping = true
  · rw [if_pos hskip] at h
    cases hfind : r.findNl with
    | none =>
      rw [hfind] at h
      simp only [Prod.mk.injEq, true_and] at h
      rw [← h]
      refine ⟨rfl, rfl, rfl, rfl, rfl, ?_⟩
      simp [pending, clearBuffer]
    | some idx =>
      rw [hfind] at h
      obtain ⟨hfd, hfile, hgen, hhead, hseen, hread⟩ := takeLine_none_alike h
      refine ⟨hfd, hfile, hgen, hhead, hseen, hread.trans ?_⟩
      have hidx := findNl_lt hfind
      simp only [advance, pending]
      omega
  · rw [if_neg hskip] at h
    exact takeLine_none_alike h

theorem Alike.like (h : r.Alike r') (c : Bytes) : r'.Like c ↔ r.Like c := by
  unfold Like
  rw [h.read, h.head]

end Reader

/-! ## A round -/

section

variable {s s' s'' : Sys} {id : FileId} {r : Reader} {d : Disk} {k : Kernel}

/-- nothing is read of the disk but the files and the path -/
theorem Still.roundsLeft (h : Still s.disk s.kern d k) (r : Reader) : roundsLeft d r = roundsLeft s.disk r := by
  obtain ⟨path, files, state, temp⟩ := d
  obtain rfl : path = s.disk.path := h.path
  obtain rfl : files = s.disk.files := h.files
  rfl

theorem Still.turnsLeft (h : Still s.disk s.kern d k) (r : Reader) : turnsLeft d r = turnsLeft s.disk r := by
  obtain ⟨path, files, state, temp⟩ := d
  obtain rfl : path = s.disk.path := h.path
  obtain rfl : files = s.disk.files := h.files
  rfl

/-- a start which was read in whole is the start of the content -/
theorem like_start {r : Reader} {c : Bytes} (hread : r.bufferStart + r.pending ≤ c.length)
    (hhead : r.head = [] ∨ r.head = c.take headMax) : r.Like c := by
  refine ⟨hread, ?_⟩
  rcases hhead with h | h
  · rw [h]
    rfl
  · rw [h, List.take_length]

theorem frozen_headOf {head : Bytes} {d₀ : Disk} {k₀ : Kernel} (h : frozen.HeadOf id head d₀ k₀ d k) :
    head = [] ∨ head = (d₀.files id).bytes.take headMax := by
  obtain ⟨d₁, k₁, h₁, -, heq⟩ := h
  rwa [h₁.content] at heq

/-- what the check of the file leaves -/
structure Checked (s : Sys) (id : FileId) (r : Reader) : Prop where
  fd : r.fd = s.reader.fd
  generation : r.generation = s.reader.generation
  file : r.file = s.reader.file
  rotationSeen : r.rotationSeen = s.reader.rotationSeen
  read : r.bufferStart + r.pending = s.reader.bufferStart + s.reader.pending
  like : s.reader.Like (s.disk.files id).bytes → r.Like (s.disk.files id).bytes

theorem checked_passes {r₀ : Reader} (hnone : s.reader.extractLine = (none, r₀))
    (h : frozen.Passes { s with reader := r₀ } id r d k) : Checked s id r := by
  have ha := Reader.extractLine_none_alike hnone
  cases h with
  | like before goes read head =>
    refine ⟨ha.fd, ha.generation, ha.file, ha.rotationSeen, ha.read, fun hlike => like_start ?_ (Or.inr ?_)⟩
    · exact ((ha.like _).2 hlike).1
    · dsimp only
      rw [(before.trans goes).content]
  | unknown goes code fail =>
    exact ⟨ha.fd, ha.generation, ha.file, ha.rotationSeen, ha.read, (ha.like _).2⟩

theorem checked_ends (h : frozen.Ends s id r d k) : Checked s id r := by
  obtain ⟨r₀, d₁, k₁, hnone, hpass, -, -⟩ := h.checked
  exact checked_passes hnone hpass

/-- how a call ends -/
structure Turned (s s' : Sys) : Prop where
  generation : s.reader.generation ≤ s'.reader.generation
  turns : s'.reader.generation ≤ s.reader.generation + turnsLeft s.disk s.reader
  /-- every file which started again has a generation of its own -/
  resets : resets s'.log + s.reader.generation ≤ resets s.log + s'.reader.generation

theorem Turned.same (hgen : s'.reader.generation = s.reader.generation)
    (hl : FileReader.resets s'.log = FileReader.resets s.log) : Turned s s' :=
  ⟨hgen.ge, by omega, by omega⟩

/-- a round which goes on with `s'` -/
structure GoesOn (s s' : Sys) : Prop where
  still : Still s.disk s.kern s'.disk s'.kern
  generation : s.reader.generation ≤ s'.reader.generation
  turns : s'.reader.generation + turnsLeft s.disk s'.reader ≤ s.reader.generation + turnsLeft s.disk s.reader
  resets : FileReader.resets s'.log + s.reader.generation ≤ FileReader.resets s.log + s'.reader.generation
  rounds : roundsLeft s.disk s'.reader + 1 ≤ roundsLeft s.disk s.reader

theorem GoesOn.turned (h : GoesOn s s') (h' : Turned s' s'') : Turned s s'' := by
  have := h.turns
  have hturns := h'.turns
  have := h.resets
  have := h'.resets
  rw [h.still.turnsLeft] at hturns
  exact ⟨h.generation.trans h'.generation, by omega, by omega⟩

/-- the file starts again: its content is the one which is read now -/
theorem goesOn_restarted {r₀ : Reader} {l : List Message} (hfd : s.reader.fd = some id)
    (hnone : s.reader.extractLine = (none, r₀)) (h : frozen.Restarts { s with reader := r₀ } id r d k)
    (hl : resets l = resets s.log + 1) : GoesOn s ⟨d, r, l, k⟩ := by
  have ha := Reader.extractLine_none_alike hnone
  obtain ⟨head, failed, hhead, hr⟩ := h.reader
  have hfd' : r.fd = some id := by
    rw [hr]
    exact ha.fd.trans hfd
  have hmay : s.reader.MayTurn s.disk id := by
    obtain ⟨d₁, k₁, h₁, -, hunlike⟩ := h.unlike
    refine Or.inl fun hlike => hunlike ?_
    rw [h₁.content]
    exact (ha.like _).2 hlike
  have hno : ¬ r.MayTurn s.disk id := by
    rw [hr]
    rintro (h0 | ⟨h0, -⟩)
    · exact h0 (like_start (Nat.zero_le _) (frozen_headOf hhead))
    · cases h0
  have hgen : r.generation = s.reader.generation + 1 := by
    rw [hr]
    exact congrArg (· + 1) ha.generation
  have hzero : r.bufferStart + r.pending = 0 := by rw [hr]; rfl
  refine ⟨h.goes, ?_, ?_, ?_, ?_⟩
  · dsimp only
    omega
  · dsimp only
    rw [turnsLeft_some hfd', if_neg hno, turnsLeft_some hfd, if_pos hmay]
    omega
  · dsimp only
    omega
  · dsimp only
    rw [roundsLeft_some hfd', if_neg hno, roundsLeft_some hfd, if_pos hmay]
    omega

/-- a part of the file which was not read yet -/
theorem goesOn_filled {chunk : Bytes} (hfd : s.reader.fd = some id) (hr : Checked s id r)
    (hstill : Still s.disk s.kern d k) (hne : chunk ≠ [])
    (hchunk : chunk <+: (d.files id).bytes.drop (r.bufferStart + r.pending)) :
    GoesOn s ⟨d, { r with
      buffer := r.rest ++ chunk, pos := 0, rotationSeen := false, incompleteSince := 0 }, s.log, k⟩ := by
  have hlen := hchunk.length_le
  have hpos := List.length_pos_iff.2 hne
  have hread := hr.read
  rw [List.length_drop, hstill.content] at hlen
  generalize hr' : ({ r with
      buffer := r.rest ++ chunk, pos := 0, rotationSeen := false, incompleteSince := 0 } : Reader) = r'
  have hfd' : r'.fd = some id := by
    rw [← hr']
    exact hr.fd.trans hfd
  have hread' : r'.bufferStart + r'.pending = r.bufferStart + r.pending + chunk.length := by
    rw [← hr']
    unfold Reader.pending Reader.rest
    simp only [List.length_append, List.length_drop]
    omega
  have hmay : r'.MayTurn s.disk id → s.reader.MayTurn s.disk id := by
    rintro (h0 | ⟨h0, -⟩)
    · refine Or.inl fun hlike => h0 ⟨?_, ?_⟩
      · have := hlike.1
        omega
      · rw [← hr']
        exact (hr.like hlike).2
    · rw [← hr'] at h0
      cases h0
  have hgen' : r'.generation = s.reader.generation := by
    rw [← hr']
    exact hr.generation
  have hsize : (s.disk.files id).size = (s.disk.files id).bytes.length := rfl
  refine ⟨hstill, hgen'.ge, ?_, ?_, ?_⟩
  · dsimp only
    rw [turnsLeft_some hfd', turnsLeft_some hfd, hgen']
    split_ifs with h1 h2
    · exact le_rfl
    · exact absurd (hmay h1) h2
    · omega
    · exact le_rfl
  · dsimp only
    rw [hgen']
  · dsimp only
    rw [roundsLeft_some hfd', roundsLeft_some hfd]
    split_ifs with h1 h2
    · omega
    · exact absurd (hmay h1) h2
    · omega
    · omega

/-- the file is let go of -/
theorem goesOn_closed (hfd : s.reader.fd = some id) (hr : Checked s id r) (hstill : Still s.disk s.kern d k)
    (hseen : r.rotationSeen = true) (helse : Env.Elsewhere d r) : GoesOn s ⟨d, r.closeFile, s.log, k⟩ := by
  have hfd' : r.closeFile.fd = none := rfl
  have hgen' : r.closeFile.generation = s.reader.generation := hr.generation
  have hmay : s.reader.MayTurn s.disk id := by
    refine Or.inr ⟨hr.rotationSeen.symm.trans hseen, ?_⟩
    obtain ⟨node, hpath, hne⟩ := helse
    rw [← hstill.path, hpath, Option.any_some, ← hr.file, decide_eq_true hne]
  refine ⟨hstill, hgen'.ge, ?_, ?_, ?_⟩
  · dsimp only
    rw [turnsLeft_none hfd', turnsLeft_some hfd, if_pos hmay, hgen']
  · dsimp only
    rw [hgen']
  · dsimp only
    rw [roundsLeft_none hfd', roundsLeft_some hfd, if_pos hmay]
    omega

/-- behind `OpenFile` no other generation can begin: the file is the one at the path -/
theorem opened_left (h : frozen.Opens s id r d k) : r.fd = some id ∧ r.generation = s.reader.generation + 1 ∧
    turnsLeft d r = 0 ∧ roundsLeft d r ≤ pathSize s.disk + 1 := by
  obtain ⟨hstill, ⟨d₀, k₀, h₀, hpath⟩, o, head, failed, d₁, k₁, h₁, -, hstarts, hhead, hr⟩ := h
  have hpath' : s.disk.path = some ⟨id, true⟩ := h₀.path.symm.trans hpath
  have ho : o ≤ (s.disk.files id).size := by
    rw [← h₁.files]
    exact hstarts.le
  have hfd : r.fd = some id := by rw [hr]; rfl
  have hlike : r.Like (s.disk.files id).bytes := by
    rw [hr]
    exact like_start ho (frozen_headOf hhead)
  have hno : ¬ r.MayTurn s.disk id := by
    rintro (h0 | ⟨-, h0⟩)
    · exact h0 hlike
    · have hfile : r.file = id := by rw [hr]; rfl
      rw [hpath', Option.any_some, hfile] at h0
      simp at h0
  refine ⟨hfd, by rw [hr]; rfl, ?_, ?_⟩
  · rw [hstill.turnsLeft, turnsLeft_some hfd, if_neg hno]
  · have hsize : pathSize s.disk = (s.disk.files id).size := pathSize_node hpath'
    rw [hstill.roundsLeft, roundsLeft_some hfd, if_neg hno, hsize]
    omega

/-! ## The loop -/

/-- one round, when the rounds behind it end -/
theorem readRound_turned (tNow : ℤ) {rounds : ℕ} (hk : s.kern.Frozen) (hfd : s.reader.fd = some id)
    (hrounds : roundsLeft s.disk s.reader ≤ rounds + 1)
    (hagain : ∀ s₁ : Sys, s₁.kern.Frozen → roundsLeft s₁.disk s₁.reader ≤ rounds →
      wp (readLoop tNow rounds) (fun _ s' => Turned s₁ s') (fun _ => False) s₁) :
    wp (readRound tNow (readLoop tNow rounds) id) (fun _ s' => Turned s s') (fun _ => False) s := by
  have hnext : ∀ s₁ : Sys, GoesOn s s₁ → wp (readLoop tNow rounds) (fun _ s' => Turned s s') (fun _ => False) s₁ := by
    intro s₁ hgoes
    have hleft := hgoes.rounds
    have hrounds₁ : roundsLeft s₁.disk s₁.reader ≤ rounds := by
      rw [hgoes.still.roundsLeft]
      omega
    apply wp_mono (hagain s₁ hgoes.still.frozen hrounds₁)
    · exact fun _ _ => hgoes.turned
    · exact fun _ h => h
  apply Env.readRound (frozen_ready hk) frozen_alive
  · intro line r he
    exact .same (Reader.extractLine_takes he).generation rfl
  · intro r₀ r d k l hnone h hl
    exact hnext _ (goesOn_restarted hfd hnone h hl)
  · intro r₀ r d₁ k₁ chunk d k hnone hpass hgo hne hchunk
    exact hnext _ (goesOn_filled hfd (checked_passes hnone hpass) (hpass.goes'.trans hgo) hne hchunk)
  · intro r₀ r d₁ k₁ code d k l hnone hpass _ hl _
    exact .same (checked_passes hnone hpass).generation hl
  · intro r since d₁ k₁ d k hend _
    have hg := (checked_ends hend).generation
    exact .same hg rfl
  · intro r d₁ k₁ d k hend _ _ _ _ _ _
    have hg := (checked_ends hend).generation
    exact .same hg rfl
  · intro r d₁ k₁ d k hend _ _
    have hg := (checked_ends hend).generation
    exact .same hg rfl
  · intro r d₁ k₁ d k hend _ _ _ _ _
    have hg := (checked_ends hend).generation
    exact .same hg rfl
  · intro r d₁ k₁ d k hend hgo helse hseen
    exact hnext _ (goesOn_closed hfd (checked_ends hend) (hend.goes.trans hgo) hseen helse)

theorem readLoop_turned (tNow : ℤ) (rounds : ℕ) (hk : s.kern.Frozen)
    (hrounds : roundsLeft s.disk s.reader ≤ rounds) :
    wp (readLoop tNow rounds) (fun _ s' => Turned s s') (fun _ => False) s := by
  induction rounds generalizing s with
  | zero =>
    exfalso
    unfold roundsLeft at hrounds
    split at hrounds <;> omega
  | succ rounds ih =>
    have hagain : ∀ s₁ : Sys, s₁.kern.Frozen → roundsLeft s₁.disk s₁.reader ≤ rounds →
        wp (readLoop tNow rounds) (fun _ s' => Turned s₁ s') (fun _ => False) s₁ := fun s₁ => ih
    unfold readLoop
    rw [wp_bind, wp_get]
    cases hfd : s.reader.fd with
    | some id => exact readRound_turned tNow hk hfd hrounds hagain
    | none =>
      dsimp only
      rw [wp_bind]
      apply Env.openFile (frozen_ready hk) frozen_alive
      · intro e d k l _ _ hl _
        exact .same rfl hl
      · intro id r d k l hopens hl
        obtain ⟨hfd', hgen', hturns, hleft⟩ := opened_left hopens
        rw [roundsLeft_none hfd] at hrounds
        have hround := readRound_turned (s := ⟨d, r, l, k⟩) tNow hopens.goes.frozen hfd' (hleft.trans hrounds) hagain
        simp only [if_true]
        rw [wp_bind, wp_get]
        dsimp only
        rw [hfd']
        apply wp_mono hround _ fun _ h => h
        intro line s' hturned
        have h1 := hturned.generation
        have h2 := hturned.turns
        have h3 := hturned.resets
        dsimp only at h1 h2 h3
        refine ⟨by omega, ?_, by omega⟩
        rw [turnsLeft_none hfd]
        omega

/-! ## More rounds change nothing -/

theorem readRound_extends (tNow : ℤ) {again again' : FrM (Option Line)} (h : again.Extends again') (id : FileId) :
    (readRound tNow again id).Extends (readRound tNow again' id) := by
  have hleave : (leaveFile again).Extends (leaveFile again') := by
    unfold leaveFile
    refine .bind (.refl _) fun s => .ite (.refl _) (.ite (.refl _) ?_)
    exact .bind (.refl _) fun _ => h
  unfold readRound
  refine .bind (.refl _) fun s => ?_
  dsimp only
  refine .bind (.refl _) fun _ => ?_
  cases s.reader.extractLine.1 with
  | some line => exact .refl _
  | none =>
    refine .bind (.refl _) fun b => .ite ?_ h
    refine .bind (.refl _) fun x => ?_
    match x with
    | .error _ => exact .refl _
    | .ok 0 => exact .bind (.refl _) fun b => .ite hleave (.refl _)
    | .ok (_ + 1) => exact .bind (.refl _) fun _ => h

theorem readLoop_extends (tNow : ℤ) (rounds : ℕ) : (readLoop tNow rounds).Extends (readLoop tNow (rounds + 1)) := by
  induction rounds with
  | zero =>
    intro s a s' h
    cases h
  | succ rounds ih =>
    have hround := readRound_extends tNow ih
    unfold readLoop
    refine .bind (.refl _) fun s => ?_
    cases s.reader.fd with
    | some id => exact hround id
    | none =>
      refine .bind (.refl _) fun b => .ite ?_ (.refl _)
      refine .bind (.refl _) fun s => ?_
      cases s.reader.fd with
      | some id => exact hround id
      | none => exact .refl _

theorem readLine_extends (tNow : ℤ) (rounds more : ℕ) :
    (readLine tNow rounds).Extends (readLine tNow (rounds + more)) := by
  have hloop : (readLoop tNow rounds).Extends (readLoop tNow (rounds + more)) := by
    induction more with
    | zero => exact .refl _
    | succ more ih => exact fun s a s' h => readLoop_extends tNow _ s a s' (ih s a s' h)
  unfold readLine
  exact .bind (.refl _) fun s => .ite (.refl _) hloop

/-- **`ReadLine` ends.** As long as no other program changes anything the loop makes at most `roundsLeft` rounds,
whatever the reader is, whatever the files are, and whatever the system calls answer: more rounds change nothing. A
file which starts again is one generation, and so is a file which is opened: there is at most one of the two. -/
theorem readLine_ends (disk : Disk) (reader : Reader) (log : List Message) (oracle : Call → List Fault) (tNow : ℤ) :
    ∃ line s', (∀ more, readLine tNow (roundsLeft disk reader + more) ⟨disk, reader, log, { oracle := oracle }⟩ =
        .done line s') ∧
      reader.generation ≤ s'.reader.generation ∧ s'.reader.generation ≤ reader.generation + 1 ∧
      resets s'.log + reader.generation ≤ resets log + s'.reader.generation := by
  have hwp : wp (readLine tNow (roundsLeft disk reader))
    (fun _ s' => Turned ⟨disk, reader, log, { oracle := oracle }⟩ s')
      (fun _ => False) ⟨disk, reader, log, { oracle := oracle }⟩ := by
    unfold readLine
    rw [wp_bind, wp_get]
    dsimp only
    by_cases hopened : reader.opened = false
    · rw [if_pos hopened]
      exact .same rfl rfl
    · rw [if_neg hopened]
      exact readLoop_turned tNow _ ⟨rfl, rfl⟩ le_rfl
  obtain ⟨line, s', hdone, hturned⟩ := exists_of_wp hwp
  refine ⟨line, s', fun more => readLine_extends tNow _ more _ _ _ hdone, hturned.generation, ?_, hturned.resets⟩
  exact hturned.turns.trans (Nat.add_le_add_left turnsLeft_le _)

end

end DominoLogForwarder.FileReader
