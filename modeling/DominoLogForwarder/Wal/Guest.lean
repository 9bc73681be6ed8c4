/-
Two `SimpleWAL` objects with the same path. The first one is the owner: it holds the lock of the WAL file. The other one
is the guest: its `Init` returned false. The locked sections of the two follow each other in any order. They have a
mutex each, so a section of the guest can run inside of one of the owner. It only reads there, too.

A guest has no open file, and every function but `Replay` looks for that first. `Replay` opens the WAL by its path, so a
guest which replays takes the records of the owner (`guest_takes_records`). `guest_changes_nothing` is about the runs in
which the loop of its replay finds nothing to read: then the owner is in the same state as without the guest.
-/
import DominoLogForwarder.Wal.Delivery
import DominoLogForwarder.Wal.Recovery

namespace DominoLogForwarder.Wal

open CrashProg Framing

/-! ## Two objects -/

/-- the files are those of the owner, the guest uses the same ones -/
structure Pair where
  owner : World
  guest : World := {}
deriving DecidableEq, Repr

/-- which of the two is called -/
inductive Move where
  | owner (st : Step)
  | guest (st : Step)

/-- nobody has the WAL open yet -/
def Pair.found (fs : Files) : Pair := { owner := { files := { fs with locked := false } } }

namespace Pair

def stepOwner (p : Pair) (st : Step) : Pair := { p with owner := p.owner.step st }

/-- the object of the guest, if it is gone behind the step, took its own lock with it and not the one of the owner -/
def stepGuest (p : Pair) (st : Step) : Pair :=
  let g := { p.guest with files := p.owner.files }.step st
  let hadLock := p.guest.wal.any (·.hasLock)
  let locked := if g.wal = none then p.owner.files.locked && !hadLock else g.files.locked
  { owner := { p.owner with files := { g.files with locked := locked } }, guest := g }

def step (p : Pair) : Move → Pair
  | .owner st => p.stepOwner st
  | .guest st => p.stepGuest st

def run (p : Pair) (ms : List Move) : Pair := ms.foldl step p

end Pair

/-- the calls of the owner -/
def ownerSteps (ms : List Move) : List Step := ms.filterMap fun
  | .owner st => some st
  | .guest _ => none

/-- the action calls `Init` -/
def Action.isStart : Action → Bool
  | .start _ => true
  | _ => false

/-- the lock is held when the guest calls `Init` -/
def Refused (p : Pair) : Move → Prop
  | .owner _ => True
  | .guest st => st.action.isStart = true → p.owner.files.locked = true ∧ st.oracle .flock = []

/-- where the loop of a replay of the guest looks for a record, the WAL ends -/
def NothingToRead (p : Pair) : Move → Prop
  | .owner _ => True
  | .guest st => st.action = .replayRead → ∀ v g, p.guest.replay = some ⟨v, .reading, g⟩ →
    p.owner.files.walBytes.length ≤ v.newOffset

/-- the run of the owner is the one it would be alone, and the guest delivered nothing -/
def Alone (fs : Files) (ms : List Move) : Prop :=
  ((Pair.found fs).run ms).owner = (Pair.found fs).owner.run (ownerSteps ms) ∧
    deliveredOf ((Pair.found fs).run ms).guest.trace = []

/-! ## The owner -/

/-- the WAL file exists while it is open, and the lock belongs to the object which has it open -/
structure Opened (fs : Files) (o : SimpleWal) : Prop where
  file : o.fd = true → fs.wal.isSome
  lock : o.hasLock = true → o.fd = true
  held : fs.locked = true → o.hasLock = true

/-- what is known of the owner, whatever it does -/
structure Owns (w : World) : Prop where
  opened : ∀ o, w.wal = some o → Opened w.files o
  free : w.wal = none → w.files.locked = false

section Calls

variable {s : Sys} {o : SimpleWal} {w : World} {st : Step}

theorem Opened.exists (h : Opened s.files s.wal) (hfd : s.wal.fd = true) : ∃ f, s.files.wal = some f :=
  Option.isSome_iff_exists.1 (h.file hfd)

theorem Owns.gone (hwal : w.wal = none) (hfree : w.files.locked = false) : Owns w := by
  refine ⟨fun o ho => ?_, fun _ => hfree⟩
  rw [hwal] at ho
  cases ho

/-- a killed process holds no lock -/
theorem call_owns {α : Type} {m : WalM α} {cut : List Event} {next : World → α → World}
    (h : wp m (fun a s' => Owns (next (w.after s') a)) (fun _ => True) (w.sys o st)) : Owns
      (w.call st o m cut next) := by
  unfold World.call
  unfold wp at h
  cases hm : m (w.sys o st) with
  | done a s' =>
    rw [hm] at h
    exact h
  | crash s' => exact Owns.gone rfl rfl

theorem Owns.of_opened {fs : Files} (hwal : w.wal = some o) (hfiles : w.files = fs) (h : Opened fs o) : Owns w := by
  refine ⟨fun o' ho' => ?_, fun hnone => ?_⟩
  · rw [hwal] at ho'
    cases ho'
    rw [hfiles]
    exact h
  · rw [hwal] at hnone
    cases hnone

theorem opened_clearInternal (h : Opened s.files s.wal) {Q : Bool → Sys → Prop}
    (hQ : ∀ b s', Opened s'.files s'.wal → Q b s') : wp Wal.clearInternal Q (fun _ => True) s := by
  have hcleared : Opened s.files.cleared s.wal :=
    ⟨fun hfd => by rw [Files.cleared, Option.isSome_map]; exact h.file hfd, h.lock, h.held⟩
  exact wp_clearInternal (D := fun _ => True) (fun _ => hQ _ _ h)
    (fun _ _ _ _ => hQ _ _ ⟨hcleared.file, h.lock, h.held⟩)
    (fun _ _ _ _ _ => hQ _ _ h) (fun _ _ _ _ _ => hQ _ _ ⟨h.file, h.lock, h.held⟩) (fun _ _ _ _ _ => hQ _ _ hcleared)
    fun _ => ⟨trivial, trivial, trivial⟩

theorem opened_storeCommit (h : Opened s.files s.wal) {offset : ℕ} {Q : Bool → Sys → Prop}
    (hQ : ∀ b s', Opened s'.files s'.wal → Q b s') : wp (Wal.storeCommit offset) Q (fun _ => True) s :=
  wp_storeCommit (D := fun _ => True) (fun _ _ _ => hQ _ _ ⟨h.file, h.lock, h.held⟩) (fun _ _ _ _ => hQ _ _ h)
    (fun _ _ _ _ _ _ => hQ _ _ ⟨h.file, h.lock, h.held⟩) fun _ => ⟨trivial, fun _ _ => trivial⟩

end Calls

theorem setting_owns {w : World} (h : Owns w) {st : Step} {f : SimpleWal → SimpleWal}
    (hf : ∀ {o}, Opened w.files o → w.wal = some o → Opened w.files (f o)) :
    Owns (w.setting st (Wal.locked (WalM.setWal f))) := by
  unfold World.setting
  cases hw : w.wal with
  | none => exact h
  | some o =>
    exact call_owns (wp_locked fun _ => Owns.of_opened rfl rfl (hf (h.opened o hw) hw))

/-- **The owner**: whatever it does and whatever fails, the file exists as long as it holds the lock. -/
theorem step_owns {w : World} (h : Owns w) (st : Step) : Owns (w.step st) := by
  unfold World.step
  cases hact : st.action with
  | start maxSize =>
    dsimp only [World.start]
    cases hw : w.wal with
    | some o => exact h
    | none =>
      have hfree : (w.sys { maxSize := maxSize } st).files.locked = false := h.free hw
      refine call_owns (wp_init (D := fun _ => True) rfl rfl (fun gotLock pending l k _ _ _ _ _ => ?_) (fun hl => ?_)
        (fun l k _ _ => ?_) fun _ => ⟨trivial, fun _ => trivial⟩)
      · refine Owns.of_opened rfl rfl ⟨fun _ => rfl, fun _ => rfl, fun hl => ?_⟩
        rw [Files.opened, hfree, Bool.false_or] at hl
        exact hl
      · rw [hfree] at hl
        cases hl
      · refine Owns.of_opened rfl rfl ⟨(fun hfd => by cases hfd), (fun hl => by cases hl), fun hl => ?_⟩
        have hl' : (w.sys { maxSize := maxSize } st).files.locked = true := hl
        rw [hfree] at hl'
        cases hl'
  | close =>
    dsimp only [World.close]
    split
    · rename_i o ho hr
      have hop := h.opened o ho
      have hgone : (w.files.locked && !o.hasLock) = false := by
        cases hl : w.files.locked with
        | false => rfl
        | true => rw [hop.held hl]; rfl
      refine call_owns ?_
      cases hfd : o.fd with
      | false =>
        have hclosed : (w.sys o st).wal.fd = false := hfd
        unfold destroy
        rw [wp_bind, wp_get, if_neg (by rw [hclosed]; exact Bool.false_ne_true), wp_pure]
        refine Owns.gone rfl ?_
        cases hl : w.files.locked with
        | false => exact hl
        | true =>
          rw [hop.lock (hop.held hl)] at hfd
          cases hfd
      | true =>
        exact wp_destroy (D := fun _ => True) hfd (fun _ _ _ => Owns.gone rfl hgone)
          (fun _ _ _ _ _ _ _ => Owns.gone rfl hgone) fun _ => ⟨trivial, fun _ _ _ => trivial⟩
    · exact h
  | kill =>
    dsimp only
    cases w.wal with
    | none => exact h
    | some o => exact Owns.gone rfl rfl
  | setMaxSize bytes => exact setting_owns h fun hop _ => ⟨hop.file, hop.lock, hop.held⟩
  | setLogLevel level => exact setting_owns h fun hop _ => ⟨hop.file, hop.lock, hop.held⟩
  | append data =>
    dsimp only [World.append]
    cases hw : w.wal with
    | none => exact h
    | some o =>
      have hop : Opened (w.sys o st).files (w.sys o st).wal := h.opened o hw
      exact call_owns (wp_append (D := fun _ => True) hop.exists (fun _ => Owns.of_opened rfl rfl hop)
        (fun _ _ _ _ _ _ _ _ => Owns.of_opened rfl rfl ⟨fun _ => rfl, hop.lock, hop.held⟩)
        (fun _ _ _ _ _ => Owns.of_opened rfl rfl ⟨hop.file, hop.lock, hop.held⟩)
        (fun _ _ _ _ _ _ _ _ _ _ _ => Owns.of_opened rfl rfl ⟨fun _ => rfl, hop.lock, hop.held⟩)
        fun _ => ⟨trivial, fun _ _ _ _ _ _ _ => trivial⟩)
  | replayStart =>
    dsimp only [World.replayStart]
    cases hw : w.wal with
    | none => exact h
    | some o =>
      have hop : Opened (w.sys o st).files (w.sys o st).wal := h.opened o hw
      exact call_owns (wp_replayStart (D := fun _ => True)
        (fun _ _ _ _ _ _ => Owns.of_opened rfl rfl ⟨hop.file, hop.lock, hop.held⟩)
        (fun _ _ _ _ => Owns.of_opened rfl rfl hop) fun _ => trivial)
  | replayRead =>
    dsimp only [World.replayRead]
    split
    · rename_i o v g hw hp
      have hop : Opened (w.sys o st).files (w.sys o st).wal := h.opened o hw
      refine call_owns (wp_replayRead (D := fun _ => True) (fun _ _ _ _ _ _ _ => Owns.of_opened rfl rfl hop)
        (fun fs hfs l k _ => ?_) (fun _ _ _ _ => Owns.of_opened rfl rfl hop)
        (fun _ _ _ _ _ => Owns.of_opened rfl rfl ⟨hop.file, hop.lock, hop.held⟩) fun _ _ => trivial)
      have hop' : Opened fs o := by
        rcases hfs with ⟨-, rfl⟩ | ⟨-, rfl, -⟩
        · exact hop
        · exact ⟨hop.file, hop.lock, hop.held⟩
      exact opened_clearInternal hop' fun _ _ hs _ => Owns.of_opened rfl rfl hs
    · exact h
  | consume answer =>
    dsimp only [World.consume]
    split
    · rename_i o v buffer g hw hp
      have hop := h.opened o hw
      cases answer with
      | accept => exact Owns.of_opened hw rfl hop
      | refuse => exact Owns.of_opened hw rfl hop
      | throw => exact call_owns (wp_locked fun _ => Owns.of_opened rfl rfl ⟨hop.file, hop.lock, hop.held⟩)
    · exact h
  | replayEnd =>
    dsimp only [World.replayEnd]
    split
    · rename_i o v g hw hp
      have hop := h.opened o hw
      have hback : Opened w.files { o with replaying := false } := ⟨hop.file, hop.lock, hop.held⟩
      exact call_owns (wp_replayEnd (D := fun _ => True) (fun _ _ => Owns.of_opened rfl rfl hback)
        (fun _ _ _ => Owns.of_opened rfl rfl hback)
        fun _ _ _ _ => opened_storeCommit hback fun _ _ hs _ => Owns.of_opened rfl rfl hs)
    · exact h
  | peek =>
    dsimp only [World.peek]
    cases hw : w.wal with
    | none => exact h
    | some o =>
      have hop : Opened (w.sys o st).files (w.sys o st).wal := h.opened o hw
      refine call_owns (wp_peek (D := fun _ => True)
        (fun _ _ _ _ _ _ _ => Owns.of_opened rfl rfl ⟨hop.file, hop.lock, hop.held⟩)
        (fun _ _ _ _ _ _ _ _ _ _ _ _ => Owns.of_opened rfl rfl ⟨hop.file, hop.lock, hop.held⟩)
        (fun _ _ _ _ _ fs hfs l k _ => ?_) fun _ _ => trivial)
      have hop' : Opened fs { o with peeked := false, commitChecked := true } := by
        rcases hfs with ⟨-, rfl⟩ | ⟨-, rfl, -⟩
        · exact ⟨hop.file, hop.lock, hop.held⟩
        · exact ⟨hop.file, hop.lock, hop.held⟩
      exact opened_clearInternal hop' fun _ _ hs _ => Owns.of_opened rfl rfl hs
  | ack =>
    dsimp only [World.ack]
    cases hw : w.wal with
    | none => exact h
    | some o =>
      have hop := h.opened o hw
      have hop' : Opened w.files { o with peeked := false } := ⟨hop.file, hop.lock, hop.held⟩
      exact call_owns (wp_ack (D := fun _ => True) (fun _ _ _ _ => Owns.of_opened rfl rfl hop')
        (fun _ _ _ _ _ _ _ _ => opened_clearInternal hop' fun _ _ hs _ => Owns.of_opened rfl rfl hs)
        (fun _ _ _ _ _ _ _ _ => opened_storeCommit hop' fun _ _ hs _ => Owns.of_opened rfl rfl hs) fun _ => trivial)
  | clear =>
    dsimp only [World.clear]
    cases hw : w.wal with
    | none => exact h
    | some o =>
      have hop := h.opened o hw
      exact call_owns (wp_locked (opened_clearInternal hop fun _ _ hs _ => Owns.of_opened rfl rfl hs))

/-! ## The guest -/

/-- what is known of the guest -/
structure Idle (g : World) : Prop where
  object : ∀ o, g.wal = some o → o.fd = false ∧ o.hasLock = false ∧ o.peeked = false
  replay : ∀ p, g.replay = some p → p.vars.didReplay = false ∧ ∀ buffer, p.place ≠ .consuming buffer
  nothing : deliveredOf g.trace = []

/-- the guest is idle, and the files `fs` are the same. What its process does to the lock when it ends is left to
`stepGuest` -/
structure Spares (fs : Files) (g : World) : Prop where
  idle : Idle g
  same : g.wal ≠ none → g.files = fs
  content : { g.files with locked := fs.locked } = fs

section Guest

variable {s : Sys} {g : World} {o : SimpleWal} {st : Step}

theorem deliveredOf_acceptHeld (w : World) : deliveredOf w.acceptHeld = [] := by
  unfold World.acceptHeld
  cases w.held <;> rfl

theorem deliveredOf_note (h : deliveredOf g.trace = []) {es : List Event} (hes : deliveredOf es = []) :
    deliveredOf (g.trace ++ es) = [] := by
  rw [deliveredOf_append, h, hes]
  rfl

theorem Spares.of_same {fs : Files} (h : Idle g) (hfs : g.files = fs) : Spares fs g :=
  ⟨h, fun _ => hfs, by rw [hfs]⟩

theorem call_spares {α : Type} {fs : Files} {m : WalM α} {cut : List Event} {next : World → α → World} (h : Idle g)
    (hcut : deliveredOf cut = [])
    (hm : wp m (fun a s' => Spares fs (next (g.after s') a)) (fun s' => s'.files = fs) (g.sys o st)) :
    Spares fs (g.call st o m cut next) := by
  unfold World.call
  unfold wp at hm
  cases hrun : m (g.sys o st) with
  | done a s' =>
    rw [hrun] at hm
    exact hm
  | crash s' =>
    rw [hrun] at hm
    refine ⟨⟨fun o ho => (nomatch ho), fun p hp => (nomatch hp), ?_⟩, fun hne => absurd rfl hne, ?_⟩
    · refine deliveredOf_note h.nothing ?_
      rw [deliveredOf_append, hcut]
      rfl
    · have hfiles : s'.files = fs := hm
      rw [← hfiles]
      rfl

/-- the object is `o` behind a call which delivered nothing -/
theorem Idle.called (h : Idle g) {g' : World} (hwal : g'.wal = some o) {es : List Event}
    (htrace : g'.trace = g.trace ++ es) (hes : deliveredOf es = [])
    (ho : o.fd = false ∧ o.hasLock = false ∧ o.peeked = false)
    (hreplay : ∀ p, g'.replay = some p → p.vars.didReplay = false ∧
      ∀ buffer, p.place ≠ .consuming buffer) : Idle g' := by
  refine ⟨fun o' ho' => ?_, hreplay, ?_⟩
  · rw [hwal] at ho'
    cases ho'
    exact ho
  · rw [htrace]
    exact deliveredOf_note h.nothing hes

theorem setting_spares (h : Idle g) {f : SimpleWal → SimpleWal}
    (hf : ∀ o, (f o).fd = o.fd ∧ (f o).hasLock = o.hasLock ∧ (f o).peeked = o.peeked) :
    Spares g.files (g.setting st (Wal.locked (WalM.setWal f))) := by
  unfold World.setting
  cases hw : g.wal with
  | none => exact Spares.of_same h rfl
  | some o =>
    obtain ⟨hfd, hlock, hpeeked⟩ := hf o
    obtain ⟨hfd', hlock', hpeeked'⟩ := h.object o hw
    exact call_spares h rfl (wp_locked fun _ => Spares.of_same (h.called rfl rfl rfl
      ⟨hfd.trans hfd', hlock.trans hlock', hpeeked.trans hpeeked'⟩ h.replay) rfl)

theorem wp_clearInternal_closed {Q : Bool → Sys → Prop} {C : Sys → Prop} (hfd : s.wal.fd = false) (h : Q true s) :
    wp Wal.clearInternal Q C s := by
  unfold clearInternal
  rw [wp_bind, wp_get, if_pos hfd]
  exact h

/-- the end of the WAL is reached: a guest has nothing to empty -/
theorem wp_replayRead_end {Q : ReplayVars × Option Bytes → Sys → Prop} {D : Files → Prop} {v : ReplayVars}
    (hfd : s.wal.fd = false) (hend : s.files.walBytes.length ≤ v.newOffset)
    (hQ : ∀ v' l k, v'.didReplay = v.didReplay → Q (v', none) ⟨s.files, s.wal, l, k⟩)
    (hc : s.kern.crashIn ≠ none → D s.files) : wp (Wal.replayRead v) Q (fun s' => D s'.files) s := by
  unfold Wal.replayRead readRecord
  refine wp_locked ?_
  rw [wp_bind, wp_bind]
  refine wp_getFileSize (fun k _ => ?_) (fun k _ _ => ?_) hc
  · dsimp only
    rw [wp_ite]
    refine ⟨fun _ l => hQ _ l k rfl, fun hle => ?_⟩
    have heq : v.newOffset = s.files.walBytes.length := by omega
    have hzero : sub64 s.files.walBytes.length v.newOffset = 0 := by
      have hmax := s.files.walBytes_le
      have hbig : offMax < 2 ^ 64 := by decide
      rw [heq, sub64_of_le (by omega) le_rfl, Nat.sub_self]
    rw [if_pos hzero, wp_bind]
    exact wp_clearInternal_closed hfd fun l => hQ _ l k rfl
  · rw [wp_bind]
    exact wp_queueErrno fun _ l => hQ _ l k rfl

/-- **The guest**: nothing it does changes the files, as long as its replay has nothing to read. -/
theorem step_spares (h : Idle g) (hfile : g.files.locked = true → g.files.wal.isSome)
    (hstart : st.action.isStart = true → g.files.locked = true ∧ st.oracle .flock = [])
    (hread : st.action = .replayRead → ∀ v n, g.replay = some ⟨v, .reading, n⟩ →
      g.files.walBytes.length ≤ v.newOffset) : Spares g.files (g.step st) := by
  have hstay : Spares g.files g := Spares.of_same h rfl
  unfold World.step
  cases hact : st.action with
  | start maxSize =>
    obtain ⟨hl, hflock⟩ := hstart (congrArg Action.isStart hact)
    dsimp only [World.start]
    cases hw : g.wal with
    | some o => exact hstay
    | none =>
      have hopened : ∀ b, (g.sys { maxSize := maxSize } st).files.opened b = g.files := by
        intro b
        show g.files.opened b = g.files
        obtain ⟨f, hf⟩ := Option.isSome_iff_exists.1 (hfile hl)
        rw [Files.opened, hf, hl, Option.getD_some, Bool.true_or, ← hf, ← hl]
      refine call_spares h rfl (wp_init (D := fun fs => fs = g.files) rfl rfl
        (fun gotLock _ _ _ _ hgot hnot _ _ => ?_) (fun _ _ _ _ => ?_) (fun _ _ _ _ => ?_) fun _ => ⟨rfl, hopened⟩)
      · cases gotLock with
        | true => exact absurd (hl.symm.trans (hgot rfl)) (by decide)
        | false => exact absurd hflock (hnot rfl)
      · exact Spares.of_same (h.called rfl rfl rfl ⟨rfl, rfl, rfl⟩ h.replay) (hopened false)
      · exact Spares.of_same (h.called rfl rfl rfl ⟨rfl, rfl, rfl⟩ h.replay) rfl
  | close =>
    dsimp only [World.close]
    split
    · rename_i o ho hr
      obtain ⟨hfd, -, -⟩ := h.object o ho
      have hclosed : (g.sys o st).wal.fd = false := hfd
      refine call_spares h rfl ?_
      unfold destroy
      rw [wp_bind, wp_get, if_neg (by rw [hclosed]; exact Bool.false_ne_true), wp_pure]
      refine Spares.of_same ⟨(fun o ho => by cases ho), fun p hp => h.replay p hp, ?_⟩ rfl
      exact deliveredOf_note h.nothing rfl
    · exact hstay
  | kill =>
    dsimp only
    cases g.wal with
    | none => exact hstay
    | some o =>
      refine ⟨⟨(fun o ho => by cases ho), (fun p hp => by cases hp), ?_⟩, fun hne => absurd rfl hne, rfl⟩
      exact deliveredOf_note h.nothing rfl
  | setMaxSize bytes => exact setting_spares h fun _ => ⟨rfl, rfl, rfl⟩
  | setLogLevel level => exact setting_spares h fun _ => ⟨rfl, rfl, rfl⟩
  | append data =>
    dsimp only [World.append]
    cases hw : g.wal with
    | none => exact hstay
    | some o =>
      have ho := h.object o hw
      have hopen : (g.sys o st).wal.fd ≠ true := by
        rw [show (g.sys o st).wal.fd = false from ho.1]
        exact Bool.false_ne_true
      refine call_spares h rfl (wp_append (D := fun fs => fs = g.files) (fun hfd => absurd hfd hopen) (fun _ => ?_)
        (fun hfd => absurd hfd hopen) (fun _ _ _ _ _ => ?_) (fun hfd => absurd hfd hopen)
        fun _ => ⟨rfl, fun hfd => absurd hfd hopen⟩)
      · exact Spares.of_same (h.called rfl rfl rfl ho h.replay) rfl
      · exact Spares.of_same (h.called rfl rfl rfl ho h.replay) rfl
  | replayStart =>
    dsimp only [World.replayStart]
    cases hw : g.wal with
    | none => exact hstay
    | some o =>
      have ho := h.object o hw
      refine call_spares h rfl (wp_replayStart (D := fun fs => fs = g.files) (fun _ _ _ _ _ _ => ?_) (fun _ _ _ _ => ?_)
        fun _ => rfl)
      · refine Spares.of_same (h.called rfl rfl rfl ho fun p hp => ?_) rfl
        cases hp
        exact ⟨rfl, (fun _ hplace => by cases hplace)⟩
      · exact Spares.of_same (h.called rfl rfl rfl ho h.replay) rfl
  | replayRead =>
    dsimp only [World.replayRead]
    split
    · rename_i o v n hw hp
      have ho := h.object o hw
      refine call_spares h rfl (wp_replayRead_end (D := fun fs => fs = g.files) ho.1 (hread hact v n hp)
        (fun v' l k hv => ?_) fun _ => rfl)
      dsimp only [World.replayReadNext]
      refine Spares.of_same (h.called rfl rfl ?_ ho fun p hp' => ?_) rfl
      · split <;> rfl
      · cases hp'
        exact ⟨hv.trans (h.replay _ hp).1, (fun _ hplace => by cases hplace)⟩
    · exact hstay
  | consume answer =>
    dsimp only [World.consume]
    split
    · rename_i o v buffer n hw hp
      exact absurd rfl ((h.replay _ hp).2 buffer)
    · exact hstay
  | replayEnd =>
    dsimp only [World.replayEnd]
    split
    · rename_i o v n hw hp
      have ho := h.object o hw
      have hend : ∀ b l k, Spares g.files
        { (g.after ⟨g.files, { o with replaying := false }, l, k⟩).note [.replayed b] with
          replay := none } := fun b l k =>
        Spares.of_same (h.called rfl rfl rfl ho fun p hp => by cases hp) rfl
      refine call_spares h rfl (wp_replayEnd (D := fun fs => fs = g.files) (fun _ _ => hend _ _ _)
        (fun _ _ _ => hend _ _ _) fun _ _ hdid => ?_)
      rw [(h.replay _ hp).1] at hdid
      cases hdid
    · exact hstay
  | peek =>
    dsimp only [World.peek]
    cases hw : g.wal with
    | none => exact hstay
    | some o =>
      have ho := h.object o hw
      refine call_spares h rfl ?_
      unfold Wal.peek
      refine wp_locked ?_
      rw [wp_bind, WalM.setWal, wp_modify, wp_bind, wp_get, if_pos (.inl ho.1), wp_pure]
      intro l
      exact Spares.of_same (h.called rfl rfl rfl ⟨ho.1, ho.2.1, rfl⟩ h.replay) rfl
  | ack =>
    dsimp only [World.ack]
    cases hw : g.wal with
    | none => exact hstay
    | some o =>
      have ho := h.object o hw
      have hpeeked : (g.sys o st).wal.peeked ≠ true := by
        rw [show (g.sys o st).wal.peeked = false from ho.2.2]
        exact Bool.false_ne_true
      refine call_spares h (deliveredOf_acceptHeld g) (wp_ack (D := fun fs => fs = g.files) (fun _ _ _ _ => ?_)
        (fun hp => absurd hp hpeeked) (fun hp => absurd hp hpeeked) fun _ => rfl)
      exact Spares.of_same (h.called rfl rfl rfl ⟨ho.1, ho.2.1, rfl⟩ h.replay) rfl
  | clear =>
    dsimp only [World.clear]
    cases hw : g.wal with
    | none => exact hstay
    | some o =>
      have ho := h.object o hw
      refine call_spares h rfl (wp_locked (wp_clearInternal_closed ho.1 fun l => ?_))
      exact Spares.of_same (h.called rfl rfl rfl ho h.replay) rfl

end Guest

/-! ## Runs -/

/-- what holds of the two objects in every state of a run -/
structure Apart (p : Pair) : Prop where
  owner : Owns p.owner
  guest : Idle p.guest

theorem apart_found (fs : Files) : Apart (Pair.found fs) :=
  ⟨Owns.gone rfl rfl, fun _ ho => (nomatch ho), fun _ hp => (nomatch hp), rfl⟩

theorem Owns.file {w : World} (h : Owns w) (hl : w.files.locked = true) : w.files.wal.isSome := by
  cases hw : w.wal with
  | none =>
    rw [h.free hw] at hl
    cases hl
  | some o =>
    have hop := h.opened o hw
    exact hop.file (hop.lock (hop.held hl))

/-- a step of the guest leaves the owner as it is -/
theorem stepGuest_owner {p : Pair} (h : Apart p) {st : Step} (href : Refused p (.guest st))
    (hread : NothingToRead p (.guest st)) : (p.stepGuest st).owner = p.owner ∧ Idle (p.stepGuest st).guest := by
  have hidle : Idle { p.guest with files := p.owner.files } := ⟨h.guest.object, h.guest.replay, h.guest.nothing⟩
  obtain ⟨hidle', hsame, hcontent⟩ := step_spares hidle h.owner.file href hread
  refine ⟨?_, hidle'⟩
  have hlock : p.guest.wal.any (·.hasLock) = false := by
    cases hw : p.guest.wal with
    | none => rfl
    | some o => exact (h.guest.object o hw).2.1
  have hfiles : (p.stepGuest st).owner.files = p.owner.files := by
    unfold Pair.stepGuest
    dsimp only
    rw [hlock, Bool.not_false, Bool.and_true]
    by_cases hgone : (World.step { p.guest with files := p.owner.files } st).wal = none
    · rw [if_pos hgone]
      exact hcontent
    · rw [if_neg hgone, hsame hgone]
  show { p.owner with files := (p.stepGuest st).owner.files } = p.owner
  rw [hfiles]

theorem step_apart {p : Pair} (h : Apart p) {m : Move} (hm : Refused p m ∧ NothingToRead p m) : Apart (p.step m) := by
  cases m with
  | owner st => exact ⟨step_owns h.owner st, h.guest⟩
  | guest st =>
    obtain ⟨howner, hidle⟩ := stepGuest_owner h hm.1 hm.2
    refine ⟨?_, hidle⟩
    show Owns (p.stepGuest st).owner
    rw [howner]
    exact h.owner

theorem run_owner {p : Pair} (h : Apart p) {ms : List Move}
    (hms : Guarded Pair.step (fun p m => Refused p m ∧ NothingToRead p m) p ms) :
    (p.run ms).owner = p.owner.run (ownerSteps ms) := by
  -- induction on the run: a step of the guest does not count
  induction ms generalizing p with
  | nil => rfl
  | cons m ms ih =>
    have hrun := ih (step_apart h hms.1) hms.2
    cases m with
    | owner st => exact hrun
    | guest st =>
      calc (p.run (.guest st :: ms)).owner
          = ((p.stepGuest st).run ms).owner := rfl
        _ = (p.stepGuest st).owner.run (ownerSteps ms) := hrun
        _ = p.owner.run (ownerSteps ms) := by rw [(stepGuest_owner h hms.1.1 hms.1.2).1]

/-- **A guest changes nothing** in a run in which its replay finds nothing to read, whatever fails and whoever is
killed. -/
theorem guest_changes_nothing (fs : Files) (ms : List Move)
    (hms : Guarded Pair.step (fun p m => Refused p m ∧ NothingToRead p m) (Pair.found fs) ms) : Alone fs ms :=
  ⟨run_owner (apart_found fs) hms, (hms.inv (fun _ _ hm h => step_apart h hm) (apart_found fs)).guest.nothing⟩

/-- the WAL is opened, the guest is refused, and calls everything while the WAL is empty -/
def politeRun : List Move :=
  [.owner (Action.quiet .start), .guest (Action.quiet .start), .owner (Action.quiet (.append (.single 7))),
    .guest (Action.quiet (.append (.single 8))), .guest (Action.quiet .peek), .guest (Action.quiet .ack),
    .guest (Action.quiet .clear), .owner (Action.quiet .peek), .owner (Action.quiet .ack),
    .guest (Action.quiet .replayStart), .guest (Action.quiet .replayRead), .guest (Action.quiet .replayEnd),
    .guest (Action.quiet .close)]

theorem plain_guest {p : Pair} {a : Action} (hstart : a.isStart = false) (hread : a ≠ .replayRead) :
    Refused p (.guest (Action.quiet a)) ∧ NothingToRead p (.guest (Action.quiet a)) :=
  ⟨fun heq => absurd (hstart.symm.trans heq) (by decide), fun heq => absurd heq hread⟩

theorem guest_changes_nothing_polite : Alone {} politeRun := by
  have hempty : ∀ v : ReplayVars, ((Pair.found {}).run (politeRun.take 10)).owner.files.walBytes.length ≤
    v.newOffset := by
    intro v
    rw [show ((Pair.found {}).run (politeRun.take 10)).owner.files.walBytes.length = 0 by decide +kernel]
    exact Nat.zero_le _
  apply guest_changes_nothing {} politeRun
  exact ⟨⟨trivial, trivial⟩, ⟨fun _ => ⟨by decide +kernel, rfl⟩, (fun heq => nomatch heq)⟩, ⟨trivial, trivial⟩,
    plain_guest (by decide) (by decide), plain_guest (by decide) (by decide), plain_guest (by decide) (by decide),
    plain_guest (by decide) (by decide), ⟨trivial, trivial⟩, ⟨trivial, trivial⟩, plain_guest (by decide) (by decide),
    ⟨(fun heq => nomatch heq), fun _ v _ _ => hempty v⟩, plain_guest (by decide) (by decide),
    plain_guest (by decide) (by decide), trivial⟩

/-! ## A guest which replays -/

theorem quarantined_ne (fs : Files) {bs : Bytes} (h : bs ≠ []) : (fs.quarantined bs).corrupt ≠ fs.corrupt := by
  unfold Files.quarantined
  cases hq : fs.corrupt with
  | none => exact fun h' => nomatch h'
  | some old =>
    intro h'
    have heq : old ++ bs = old := Option.some.inj h'
    exact h (List.append_right_eq_self.1 heq)

/-- **Where there is something to read**, a guest delivers it, or moves it to the `.corrupt` file, unless a call
fails. -/
theorem guest_reads {g : World} {o : SimpleWal} {v : ReplayVars} {n : ℕ} (hw : g.wal = some o) (hfd : o.fd = false)
    (hp : g.replay = some ⟨v, .reading, n⟩) (hlt : v.newOffset < g.files.walBytes.length) :
    (∃ r, (g.step (Action.quiet .replayRead)).trace = g.trace ++ [.delivered g.gen r]) ∨
      (g.step (Action.quiet .replayRead)).files.corrupt ≠ g.files.corrupt := by
  have hspec : wp (Wal.replayRead v) (fun a s => (∃ r, a.2 = some r) ∨ s.files.corrupt ≠ g.files.corrupt)
      (fun _ => False) (g.sys o (Action.quiet .replayRead)) := by
    refine wp_replayRead (D := fun _ => False) (fun r _ _ _ _ _ _ => .inl ⟨r, rfl⟩) (fun fs hfs _ _ _ => ?_)
      (fun hgt => ?_) (fun _ _ _ _ hno => ?_) fun h => not_cut h
    · rcases hfs with ⟨heq, -⟩ | ⟨-, rfl, -⟩
      · exact absurd heq (Nat.ne_of_lt hlt)
      · refine wp_clearInternal_closed hfd fun _ => .inr (quarantined_ne _ fun hnil => ?_)
        exact absurd (List.drop_eq_nil_iff.1 hnil) (Nat.not_le.2 hlt)
    · exact absurd hgt (Nat.not_lt.2 (Nat.le_of_lt hlt))
    · obtain ⟨c, -, hno⟩ := hno
      exact not_failed hno
  obtain ⟨⟨v', record⟩, s, hQ, hcall⟩ := call_quiet hspec
  have hstep : g.step (Action.quiet .replayRead) = (g.after s).replayReadNext n (v', record) := by
    show g.replayRead _ = _
    unfold World.replayRead
    rw [hw, hp]
    exact hcall
  rw [hstep]
  cases record with
  | some r => exact .inl ⟨r, rfl⟩
  | none =>
    obtain ⟨r, hr⟩ | hcorrupt := hQ
    · cases hr
    · exact .inr hcorrupt

/-- the guest accepts the first of two records, and refuses the second one -/
def takingRun : List Move :=
  [.owner (Action.quiet .start), .owner (Action.quiet (.append (.single 7))),
    .owner (Action.quiet (.append (.single 8))), .guest (Action.quiet .start), .guest (Action.quiet .replayStart),
    .guest (Action.quiet .replayRead), .guest (Action.quiet (.consume .accept)), .guest (Action.quiet .replayRead),
    .guest (Action.quiet (.consume .refuse)), .guest (Action.quiet .replayEnd), .owner (Action.quiet .peek)]

/-- both records are delivered to the guest, and the owner does not see the first one any more -/
theorem guest_takes_records : Guarded Pair.step Refused (Pair.found {}) takingRun ∧ ¬ Alone {} takingRun ∧
    deliveredOf ((Pair.found {}).run takingRun).guest.trace = [[7], [8]] ∧
    deliveredOf ((Pair.found {}).run takingRun).owner.trace = [[8]] ∧
    deliveredOf ((Pair.found {}).owner.run (ownerSteps takingRun)).trace = [[7]] := by
  have hguest : deliveredOf ((Pair.found {}).run takingRun).guest.trace = [[7], [8]] := by decide +kernel
  refine ⟨?_, fun h => ?_, hguest, by decide +kernel, by decide +kernel⟩
  · have hplain : ∀ {p : Pair} {a : Action}, a.isStart = false → Refused p (.guest (Action.quiet a)) :=
      fun hstart heq => absurd (hstart.symm.trans heq) (by decide)
    exact ⟨trivial, trivial, trivial, fun _ => ⟨by decide +kernel, rfl⟩, hplain (by decide), hplain (by decide),
      hplain (by decide), hplain (by decide), hplain (by decide), hplain (by decide), trivial, trivial⟩
  · rw [h.2] at hguest
    cases hguest

end DominoLogForwarder.Wal
