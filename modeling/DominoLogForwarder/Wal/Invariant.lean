/-
What holds in every state of a WAL, whatever fails: the files and the variables of the object say the same as a cursor
log (`Lib/CursorLog.lean`), which is the abstract WAL. `Inv m w c t` connects the two: `c` is the cursor log of the
content since the last `Clear`, `t` are the bytes behind the last whole record.

`Mode` says what a run is about, and `Allowed` what a step may do in it. The theorems about single claims choose the
mode, and prove or assume that their steps are allowed.
-/
import DominoLogForwarder.Lib.FramedLog
import DominoLogForwarder.Lib.History
import DominoLogForwarder.Wal.Spec
import DominoLogForwarder.Wal.System

namespace DominoLogForwarder.Wal

open CrashProg Framing FramedLog History

/-! ## Modes -/

structure Mode where
  /-- no call fails, no process is killed, no consumer throws -/
  quiet : Prop
  /-- an `Append` may leave a part of a record behind -/
  torn : Prop
  /-- the WAL file and the position which `Init` found, if nothing is known about the position -/
  found : Option (Bytes × ℕ)

/-! ## The files -/

/-- the records in the WAL file are the entries of `c`, with `t` behind them -/
structure Disk (fs : Files) (c : CursorLog Bytes) (t : Bytes) : Prop where
  stored : Parses lenSize fs.walBytes c.entries t
  valid : c.Valid

/-- the commit file holds the stored position of `c` -/
def Marked (fs : Files) (c : CursorLog Bytes) : Prop := fs.commitValue = offset lenSize c c.mark

/-- the commit file holds a position which was there before and is not the start of a record. Nothing was accepted
yet -/
structure Misplaced (m : Mode) (fs : Files) (wal : Option SimpleWal) (c : CursorLog Bytes) (t : Bytes) : Prop where
  quiet : m.quiet
  found : ∃ bs, m.found = some (bs, fs.commitValue) ∧ ¬ IsBoundary lenSize bs fs.commitValue
  start : c.mark = c.base
  whole : t = []
  epoch : ∀ o, wal = some o → o.positionEpoch = 0

/-! ## The object and a replay -/

/-- the object after `Peek`: the record is the one at a position which was accepted up to there -/
structure Peeked (m : Mode) (w : World) (c : CursorLog Bytes) (o : SimpleWal) (i : ℕ) (r : Bytes) : Prop where
  base_le : c.base ≤ i
  le_front : i ≤ c.front
  entry : c.appended[i]? = some r
  offset : o.peekOffset = offset lenSize c i
  len : o.peekLen = r.length
  held : w.held = some r
  /-- only a replay which moves the position afterwards can accept the record before -/
  next : m.quiet → i = c.front ∨ ∃ p, w.replay = some p ∧ p.gen = w.gen ∧ p.vars.didReplay = true ∧
    p.vars.cleared = false ∧ p.vars.changed = false

structure ObjectInv (m : Mode) (w : World) (c : CursorLog Bytes) (o : SimpleWal) : Prop where
  fd : o.fd = true
  file : ∃ f, w.files.wal = some f
  lock : w.files.locked = o.hasLock
  replaying : o.replaying = w.replay.isSome
  pending : o.pendingReplay = false → c.base = c.appended.length
  epoch : o.peeked = true → o.peekEpoch ≤ o.positionEpoch
  peek : o.peeked = true → o.peekEpoch = o.positionEpoch → ∃ i r, Peeked m w c o i r

/-- a replay stands at position `i` -/
structure Going (m : Mode) (c : CursorLog Bytes) (v : ReplayVars) (i : ℕ) : Prop where
  reader : c.reader = some i
  offset : v.newOffset = offset lenSize c i
  cleared : v.cleared = false
  changed : v.changed = false
  start : m.quiet → v.didReplay = false → c.mark = i
  last : v.didReplay = true → c.last = i ∧ c.base < i

/-- the WAL holds what was appended since the last replay emptied it -/
def Emptied (w : World) (c : CursorLog Bytes) : Prop :=
  ∃ pre post, w.trace = pre ++ .emptied :: post ∧ c.entries = appendedIn w.gen post ∧ acceptedIn w.gen post = [] ∧
    .replaying ∉ post

/-- `r` is the next record of generation `g` to accept, or at least one of them -/
def Next (m : Mode) (tr : List Event) (g : ℕ) (r : Bytes) : Prop :=
  r ∈ appendedIn g tr ∧ (m.quiet → acceptedIn g tr ++ [r] <+: appendedIn g tr)

/-- a replay whose position belongs to the content of the WAL -/
def Fresh (m : Mode) (w : World) (c : CursorLog Bytes) (p : Replaying) : Prop :=
  match p.place with
  | .reading => ∃ i, Going m c p.vars i
  | .consuming buffer => ∃ i, Going m c p.vars i ∧ c.appended[i]? = some buffer
  | .ending => (∃ i, Going m c p.vars i) ∨
      (p.vars.cleared = true ∧ c.reader = none ∧ (p.vars.clearOk = true → Emptied w c))

/-- a replay whose position was computed before a `Clear` -/
structure Stale (m : Mode) (c : CursorLog Bytes) (p : Replaying) : Prop where
  quiet : m.quiet
  reader : c.reader = none
  front : c.front = 0
  going : p.place ≠ .ending → p.vars.cleared = false ∧ p.vars.changed = false
  moved : p.place ≠ .ending → p.vars.didReplay = true → 0 < p.vars.newOffset

structure ReplayInv (m : Mode) (w : World) (c : CursorLog Bytes) (p : Replaying) : Prop where
  gen_le : p.gen ≤ w.gen
  fresh : p.gen = w.gen → Fresh m w c p
  stale : p.gen ≠ w.gen → Stale m c p
  next : ∀ buffer, p.place = .consuming buffer → Next m w.trace p.gen buffer

/-! ## The history -/

/-- only records which were appended are delivered and accepted. On a quiet machine it is the oldest one left -/
def Faithful (m : Mode) (pre : List Event) (e : Event) : Prop :=
  ∀ g r, e = .delivered g r ∨ e = .accepted g r → Next m pre g r

structure TraceInv (m : Mode) (g : ℕ) (tr : List Event) (c : CursorLog Bytes) : Prop where
  live : c.appended = appendedIn g tr
  hist : c.accepted = acceptedIn g tr
  upTo : UpTo g tr
  faithful : Each (Faithful m) tr

/-- what was accepted is not delivered again: the stored position is behind it, or it is not in the WAL any more -/
def Settled (w : World) (c : CursorLog Bytes) : Prop :=
  (c.base < c.last ∧ c.mark = c.last) ∨ c.entries = [] ∨ (w.trace.getLast? = some (.replayed true) ∧ Emptied w c)

/-- `Replay` or `Ack` just returned true -/
def Settles (tr : List Event) : Prop := tr.getLast? = some (.replayed true) ∨ tr.getLast? = some (.acked true)

/-! ## The invariant -/

structure Inv (m : Mode) (w : World) (c : CursorLog Bytes) (t : Bytes) : Prop where
  disk : Disk w.files c t
  commit : Marked w.files c ∨ Misplaced m w.files w.wal c t
  whole : t = [] ∨ m.torn
  exact : m.quiet → c.Exact
  trace : TraceInv m w.gen w.trace c
  object : ∀ o, w.wal = some o → ObjectInv m w c o
  absent : w.wal = none → w.files.locked = false ∧ w.replay = none
  replay : ∀ p, w.replay = some p → ReplayInv m w c p
  idle : w.replay = none → c.reader = none
  held : ¬ m.quiet → ∀ r, w.held = some r → r ∈ c.appended
  settled : w.gen = 0 → Settles w.trace → Settled w c

/-- some cursor log stands behind the state -/
def Ok (m : Mode) (w : World) : Prop := ∃ c t, Inv m w c t

/-! ## What a step may do -/

/-- whole records and nothing behind them -/
def Whole (bs : Bytes) : Prop := ∃ rs, Parses lenSize bs rs []

/-- the commit file does not mislead a replay or a peek which starts now: this object wrote it, or the position which
was found with the WAL file `bs` is the start of a record there, or it is behind the end of the WAL, or it is not
checked yet and the check will find it wrong -/
def PositionFits (w : World) (bs : Bytes) (found : ℕ) (o : SimpleWal) : Prop :=
  o.positionEpoch ≠ 0 ∨ IsBoundary lenSize bs found ∨
    w.files.walBytes.length < w.files.commitValue ∨
    (o.commitChecked = false ∧ ¬ IsBoundary lenSize w.files.walBytes w.files.commitValue)

structure Allowed (m : Mode) (w : World) (st : Step) : Prop where
  fstat : st.oracle .fstat = []
  rewind : st.oracle .rewind = []
  openWal : st.oracle .openWal = []
  preadLen : ∀ n, Fault.short n ∉ st.oracle .preadLen
  quiet : m.quiet → (∀ c, st.oracle c = []) ∧ st.crashIn = none ∧ st.action ≠ .kill ∧ st.action ≠ .consume .throw
  append : ∀ d, st.action = .append d →
    (m.torn → d.bytes ≠ [] → Whole w.files.walBytes) ∧ (¬ m.torn → st.oracle .rollback = [] ∧ st.crashIn = none)
  clear : st.action = .clear → m.quiet
  position : st.action = .replayStart ∨ st.action = .peek → ∀ bs v, m.found = some (bs, v) →
    ∀ o, w.wal = some o → PositionFits w bs v o
  reading : ∀ v g, st.action = .replayRead → w.replay = some ⟨v, .reading, g⟩ → g ≠ w.gen →
    v.newOffset = 0 ∨ w.files.walBytes.length < v.newOffset
  ending : ∀ v g, st.action = .replayEnd → w.replay = some ⟨v, .ending, g⟩ → g ≠ w.gen →
    v.cleared = true ∨ v.changed = true ∨ v.didReplay = false

/-! ## Consequences -/

section Facts

variable {m : Mode} {w : World} {c : CursorLog Bytes} {t : Bytes}

theorem Allowed.calm {st : Step} (h : Allowed m w st) (hq : m.quiet) {k : Call} : st.oracle k = [] := (h.quiet hq).1 k

theorem Allowed.noisy {st : Step} (h : Allowed m w st) {k : Call} (hk : st.oracle k ≠ []) : ¬ m.quiet :=
  fun hq => hk (h.calm hq)

theorem Allowed.cut {st : Step} (h : Allowed m w st) (hk : st.crashIn ≠ none) : ¬ m.quiet :=
  fun hq => hk (h.quiet hq).2.1

theorem Inv.marked (h : Inv m w c t) (hq : ¬ m.quiet) : Marked w.files c :=
  h.commit.resolve_right fun hm => hq hm.quiet

/-- where no wrong position is looked for, the commit file has the mark -/
theorem Inv.marked_of_found (h : Inv m w c t) (hfound : m.found = none) : Marked w.files c := by
  refine h.commit.resolve_right fun hm => ?_
  obtain ⟨bs, hsome, -⟩ := hm.found
  rw [hfound] at hsome
  cases hsome

theorem Inv.whole_of (h : Inv m w c t) (hw : m.torn → Whole w.files.walBytes) : t = [] := by
  rcases h.whole with ht | ht
  · exact ht
  · obtain ⟨rs, hrs⟩ := hw ht
    exact (h.disk.stored.unique hrs).2

/-- where a replay or a peek starts: at the stored position, or from the first record -/
theorem Inv.takes (h : Inv m w c t) {st : Step} (ha : Allowed m w st)
    (hact : st.action = .replayStart ∨ st.action = .peek) {o : SimpleWal} (ho : w.wal = some o) {off : ℕ}
    (ht : Takes (w.sys o st) off) :
    ∃ i, c.base ≤ i ∧ i ≤ c.mark ∧ off = offset lenSize c i ∧ (m.quiet → i = c.mark) := by
  have hbm := h.disk.valid.base_mark
  rcases ht with hst | ⟨rfl, k, -, hk⟩
  · rcases h.commit with hm | hm
    · have hle : w.files.commitValue ≤ w.files.walBytes.length := by
        rw [hm]; exact offset_le h.disk.stored _
      have hb : IsBoundary lenSize w.files.walBytes w.files.commitValue := by
        rw [hm]
        exact isBoundary_offset h.disk.stored (h.disk.valid.mark_front.trans h.disk.valid.front_le)
      refine ⟨c.mark, hbm, le_rfl, ?_, fun _ => rfl⟩
      rw [← hm]
      rcases hst with ⟨hlt, -⟩ | ⟨-, -, heq⟩ | ⟨-, -, -, heq⟩ | ⟨-, -, hnb, -⟩
      · exact absurd hlt (Nat.not_lt.2 hle)
      · exact heq
      · exact heq
      · exact absurd hb hnb
    · -- the position is not right, and it is not used
      obtain ⟨bs, hfound, hnb⟩ := hm.found
      have hzero : off = 0 := by
        rcases ha.position hact bs _ hfound o ho with hf | hf | hf | ⟨hch, hf⟩
        · exact absurd (hm.epoch o ho) hf
        · exact absurd hf hnb
        · rcases hst with ⟨-, heq⟩ | ⟨hle, -⟩ | ⟨hle, -⟩ | ⟨hle, -⟩
          · exact heq
          · exact absurd hf (Nat.not_lt.2 hle)
          · exact absurd hf (Nat.not_lt.2 hle)
          · exact absurd hf (Nat.not_lt.2 hle)
        · rcases hst with ⟨-, heq⟩ | ⟨-, hc, -⟩ | ⟨-, -, hb, -⟩ | ⟨-, -, -, heq⟩
          · exact heq
          · have hc' : o.commitChecked = true := hc
            rw [hch] at hc'
            cases hc'
          · refine absurd ?_ hf
            rcases hb with hb | hb
            · -- whole records end at a boundary
              have hend := isBoundary_offset h.disk.stored (le_refl c.appended.length)
              have hlen := length_eq h.disk.stored
              rw [hm.whole, List.length_nil, Nat.add_zero] at hlen
              have hb' : w.files.commitValue = w.files.walBytes.length := hb
              rw [hb', hlen]
              exact hend
            · exact hb
          · exact heq
      refine ⟨c.base, le_rfl, hbm, ?_, fun _ => hm.start.symm⟩
      rw [hzero, offset_base]
  · exact ⟨c.base, le_rfl, hbm, (offset_base).symm, fun hq => absurd (ha.calm hq) hk⟩

end Facts

end DominoLogForwarder.Wal
