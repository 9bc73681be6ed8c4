/-
Every allowed step keeps the invariant (`step_ok`), one lemma for each action. The rule of the function which the action
calls gives its outcomes. For each of them the cursor log behind the new state is named: an append appends, an accepted
record moves the front, a stored position is the mark, an emptied WAL is an empty log, and what a killed process leaves
behind is the log without a reader.
-/
import DominoLogForwarder.Wal.Invariant

namespace DominoLogForwarder.Wal

open CrashProg Framing FramedLog History

variable {m : Mode} {w : World} {c : CursorLog Bytes} {t : Bytes}

/-! ## One more event -/

section Events

variable {g : ℕ} {tr : List Event} {e : Event}

/-- an event which neither stores nor accepts a record -/
structure Plain (e : Event) : Prop where
  appended : e.appended? = none
  accepted : e.accepted? = none

theorem Plain.appendedIn (h : Plain e) (g : ℕ) : appendedIn g [e] = [] := by
  simp [Wal.appendedIn, h.appended]

theorem Plain.acceptedIn (h : Plain e) (g : ℕ) : acceptedIn g [e] = [] := by
  simp [Wal.acceptedIn, h.accepted]

theorem appendedIn_concat_plain (h : Plain e) : appendedIn g (tr ++ [e]) = appendedIn g tr := by
  rw [appendedIn_append, h.appendedIn, List.append_nil]

theorem acceptedIn_concat_plain (h : Plain e) : acceptedIn g (tr ++ [e]) = acceptedIn g tr := by
  rw [acceptedIn_append, h.acceptedIn, List.append_nil]

@[simp] theorem appendedIn_stored {r : Bytes} (hr : r ≠ []) : appendedIn g [.appended g r true] = [r] := by
  simp [appendedIn, Event.appended?, hr]

@[simp] theorem acceptedIn_accepted {r : Bytes} : acceptedIn g [.accepted g r] = [r] := by
  simp [acceptedIn, Event.accepted?]

theorem acceptedIn_accepted_ne {g' : ℕ} {r : Bytes} (h : g' ≠ g) : acceptedIn g [.accepted g' r] = [] := by
  simp [acceptedIn, Event.accepted?, h]

theorem faithful_of_plain (hd : ∀ g r, e ≠ .delivered g r) (ha : ∀ g r, e ≠ .accepted g r) (tr : List Event) :
    Faithful m tr e := by
  rintro g r (h | h)
  · exact absurd h (hd g r)
  · exact absurd h (ha g r)

theorem TraceInv.concat {c' : CursorLog Bytes} (h : TraceInv m g tr c) (hg : ∀ g', e.gen = some g' → g' ≤ g)
    (hf : Faithful m tr e) (happ : c'.appended = c.appended ++ appendedIn g [e])
    (hacc : c'.accepted = c.accepted ++ acceptedIn g [e]) : TraceInv m g (tr ++ [e]) c' where
  live := by rw [happ, h.live, appendedIn_append]
  hist := by rw [hacc, h.hist, acceptedIn_append]
  upTo := h.upTo.concat hg
  faithful := h.faithful.concat hf

theorem TraceInv.plain {c' : CursorLog Bytes} (h : TraceInv m g tr c) (hp : Plain e)
    (hg : ∀ g', e.gen = some g' → g' ≤ g) (hf : Faithful m tr e) (happ : c'.appended = c.appended)
    (hacc : c'.accepted = c.accepted) :
    TraceInv m g (tr ++ [e]) c' :=
  h.concat hg hf (by rw [hp.appendedIn, List.append_nil, happ]) (by rw [hp.acceptedIn, List.append_nil, hacc])

theorem TraceInv.of_eq {c' : CursorLog Bytes} (h : TraceInv m g tr c) (happ : c'.appended = c.appended)
    (hacc : c'.accepted = c.accepted) : TraceInv m g tr c' where
  live := by rw [happ, h.live]
  hist := by rw [hacc, h.hist]
  upTo := h.upTo
  faithful := h.faithful

theorem not_mem_concat {e' : Event} {post : List Event} (h : e' ∉ post) (hne : e ≠ e') : e' ∉ post ++ [e] := by
  intro hm
  rcases List.mem_append.1 hm with hm | hm
  · exact h hm
  · exact hne (List.mem_singleton.1 hm).symm

theorem settles_concat (h : Settles (tr ++ [e])) : e = .replayed true ∨ e = .acked true :=
  h.imp (fun h => by simpa using h) fun h => by simpa using h

theorem not_settles_concat (h1 : e ≠ .replayed true) (h2 : e ≠ .acked true) : ¬ Settles (tr ++ [e]) := by
  rintro (h | h)
  · exact h1 (by simpa using h)
  · exact h2 (by simpa using h)

/-- more records do not change which one is next, as long as none is accepted -/
theorem Next.concat {r : Bytes} (h : Next m tr g r) (hacc : acceptedIn g [e] = []) : Next m (tr ++ [e]) g r := by
  refine ⟨?_, fun hq => ?_⟩
  · rw [appendedIn_append]
    exact List.mem_append_left _ h.1
  · rw [acceptedIn_append, hacc, List.append_nil, appendedIn_append]
    exact (h.2 hq).trans (List.prefix_append _ _)

/-- the entry at the front is the next one to accept -/
theorem Inv.next (h : Inv m w c t) {i : ℕ} {r : Bytes} (hr : c.appended[i]? = some r) (hi : m.quiet → i = c.front) :
    Next m w.trace w.gen r := by
  refine ⟨?_, fun hq => ?_⟩
  · rw [← h.trace.live]
    exact List.mem_of_getElem? hr
  · rw [← h.trace.live, ← h.trace.hist, (h.exact hq).all, ← hi hq]
    have htake : c.appended.take i ++ [r] = c.appended.take (i + 1) := by
      rw [List.take_add_one, hr]
      rfl
    rw [htake]
    exact List.take_prefix _ _

end Events

/-! ## The files of a state -/

section Files

variable {fs : Files} {i : ℕ}

theorem Disk.corrupt (h : Disk fs c t) (q : Option Bytes) : Disk { fs with corrupt := q } c t := ⟨h.stored, h.valid⟩

theorem Disk.quarantined (h : Disk fs c t) (bs : Bytes) : Disk (fs.quarantined bs) c t := ⟨h.stored, h.valid⟩

theorem Disk.stop (h : Disk fs c t) : Disk fs c.stop t := ⟨h.stored, h.valid.stop⟩

/-- without a position in the commit file, the WAL is read from its first record -/
theorem Disk.forget (h : Disk fs c t) (q : Option Bytes) : Disk { fs with commit := q } (c.store c.base) t :=
  ⟨h.stored, h.valid.store le_rfl (h.valid.base_mark.trans h.valid.mark_front)⟩

theorem marked_forget {q : Option Bytes} (hq : q = none ∨ ∃ p : Bytes, q = some p ∧ p.length < 8) :
    Marked { fs with commit := q } (c.store c.base) := by
  show Files.commitValue _ = offset lenSize c c.base
  rw [offset_base]
  rcases hq with rfl | ⟨p, rfl, hp⟩
  · rfl
  · exact commitValue_short hp

theorem Disk.stored_at (h : Disk fs c t) (q : Option Bytes) (hb : c.base ≤ i) (hf : i ≤ c.front) :
    Disk { fs with commit := q } (c.store i) t := ⟨h.stored, h.valid.store hb hf⟩

theorem Disk.offset_le_max (h : Disk fs c t) (i : ℕ) : offset lenSize c i ≤ offMax :=
  (offset_le h.stored i).trans fs.walBytes_le

theorem marked_stored (h : Disk fs c t) (i : ℕ) :
    Marked { fs with commit := some (leBytes 8 (offset lenSize c i)) } (c.store i) :=
  commitValue_stored (h.offset_le_max i)

theorem Disk.cleared (h : Disk fs c t) (hall : c.front = c.appended.length) : Disk fs.cleared c.empty [] := by
  refine ⟨?_, h.valid.empty hall⟩
  rw [walBytes_cleared, CursorLog.empty_entries]
  exact parses_nil (by decide)

theorem marked_cleared : Marked fs.cleared c.empty := by
  show fs.cleared.commitValue = offset lenSize c.empty c.empty.base
  rw [offset_base]
  rfl

/-- an entry which is not followed by a frame is the last one -/
theorem Disk.all_accepted (h : Disk fs c t) (hb : c.base ≤ i) (hf : i ≤ c.front)
    (hend : offset lenSize c i = fs.walBytes.length ∨
      parseFrame lenSize (fs.walBytes.drop (offset lenSize c i)) = none) :
    c.front = c.appended.length := by
  have hfl := h.valid.front_le
  have hi : i = c.appended.length := by
    rcases hend with hend | hend
    · exact end_of_length h.stored hb (hf.trans hfl) hend
    · exact end_of_parse h.stored hb (hf.trans hfl) hend
  omega

theorem Disk.torn (h : Disk fs c []) {f' : File} {x p : Bytes} (hx : Fits lenSize x) (hp : p <+: frame lenSize x)
    (hne : p ≠ frame lenSize x) (hb : f'.bytes = fs.walBytes ++ p) : Disk (fs.withWal f') c p := by
  refine ⟨?_, h.valid⟩
  rw [walBytes_withWal, hb]
  exact parses_torn h.stored hx hp hne

theorem whole_or (hw : t = [] ∨ m.torn) {t' : Bytes} (h : t' = t ∨ t' = []) : t' = [] ∨ m.torn := by
  rcases h with rfl | rfl
  · exact hw
  · exact Or.inl rfl

end Files

/-! ## A killed process -/

/-- what a killed process leaves behind is a log without a reader -/
theorem killed_ok {fs : Files} {log : Log} {es : List Event} {c' : CursorLog Bytes} {t' : Bytes} (hq : ¬ m.quiet)
    (hdisk : Disk fs c' t') (hmark : Marked fs c') (hwhole : t' = [] ∨ m.torn)
    (htr : TraceInv m w.gen (w.trace ++ es) c') : Ok m (w.killed fs log es) := by
  have htrace : TraceInv m w.gen (w.trace ++ (es ++ [.killed])) c'.stop := by
    rw [← List.append_assoc]
    exact htr.plain ⟨rfl, rfl⟩ (by simp [Event.gen]) (faithful_of_plain (by simp) (by simp) _) rfl rfl
  refine ⟨c'.stop, t', ?_⟩
  constructor
  · exact ⟨hdisk.stored, hdisk.valid.stop⟩
  · exact Or.inl hmark
  · exact hwhole
  · exact fun h => absurd h hq
  · exact htrace
  · exact fun o ho => nomatch ho
  · exact fun _ => ⟨rfl, rfl⟩
  · exact fun p hp => nomatch hp
  · exact fun _ => rfl
  · exact fun _ r hr => nomatch hr
  · intro _ hs
    have hs' : Settles ((w.trace ++ es) ++ [.killed]) := by
      rw [List.append_assoc]; exact hs
    exact absurd hs' (not_settles_concat (by simp) (by simp))

/-! ## Calls of member functions -/

/-- every state a killed process can leave behind is fine -/
def Left (m : Mode) (w : World) (cut : List Event) (fs : Files) : Prop := ∀ log, Ok m (w.killed fs log cut)

/-- the rule of a step which calls a member function -/
theorem call_ok {α : Type} {st : Step} {o : SimpleWal} {f : WalM α} {cut : List Event} {next : World → α → World}
    (h : wp f (fun a s => Ok m (next (w.after s) a)) (fun s' => Left m w cut s'.files) (w.sys o st)) :
    Ok m (w.call st o f cut next) := by
  unfold World.call
  unfold wp at h
  cases hf : f (w.sys o st) with
  | done a s => rw [hf] at h; exact h
  | crash s => rw [hf] at h; exact h s.log

theorem Inv.left (h : Inv m w c t) {fs : Files} {t' : Bytes} (c' : CursorLog Bytes) (hq : ¬ m.quiet)
    (hd : Disk fs c' t') (hm : Marked fs c') (ht : t' = t ∨ t' = []) (happ : c'.appended = c.appended)
    (hacc : c'.accepted = c.accepted) : Left m w [] fs := by
  intro log
  refine killed_ok hq hd hm (whole_or h.whole ht) ?_
  rw [List.append_nil]
  exact h.trace.of_eq happ hacc

/-- killed inside a call which did nothing to the records yet -/
theorem Inv.left_same (h : Inv m w c t) (hq : ¬ m.quiet) (q : Option Bytes) :
    Left m w [] { w.files with corrupt := q } :=
  h.left c hq (h.disk.corrupt q) (h.marked hq) (Or.inl rfl) rfl rfl

/-- killed while the WAL is emptied: before, between, or behind the two calls which do it -/
theorem Inv.left_clear (h : Inv m w c t) {fs : Files} (hq : ¬ m.quiet) (hd : Disk fs c t)
    (hval : fs.commitValue = w.files.commitValue) (hall : c.front = c.appended.length) :
    Left m w [] fs ∧ Left m w [] { fs with commit := none } ∧ Left m w [] fs.cleared :=
  ⟨h.left c hq hd (hval.trans (h.marked hq)) (Or.inl rfl) rfl rfl,
    h.left (c.store c.base) hq (hd.forget none) (marked_forget (Or.inl rfl)) (Or.inl rfl) rfl rfl,
    h.left c.empty hq (hd.cleared hall) marked_cleared (Or.inr rfl) rfl rfl⟩

/-- the invariant after a step which appends nothing and accepts nothing: what the state says is to be shown, what the
history says follows -/
theorem Inv.update {o' : SimpleWal} {e : Event} {fs : Files} {log : Log} {rep : Option Replaying} {held : Option Bytes}
    {c' : CursorLog Bytes} {t' : Bytes} (h : Inv m w c t) (happ : c'.appended = c.appended)
    (hacc : c'.accepted = c.accepted) (hp : Plain e) (hg : ∀ g, e.gen = some g → g ≤ w.gen) (hf : Faithful m w.trace e)
    (hdisk : Disk fs c' t') (hcommit : Marked fs c' ∨ Misplaced m fs (some o') c' t') (hwhole : t' = t ∨ t' = [])
    (hexact : m.quiet → c'.Exact)
    (hobj : ObjectInv m { w with
      files := fs, wal := some o', log := log, replay := rep, held := held, trace := w.trace ++ [e] } c' o')
    (hrep : ∀ p, rep = some p → ReplayInv m { w with
      files := fs, wal := some o', log := log, replay := rep, held := held, trace := w.trace ++ [e] } c' p)
    (hidle : rep = none → c'.reader = none) (hheld : ¬ m.quiet → ∀ r, held = some r → r ∈ c.appended)
    (hset : w.gen = 0 → e = .replayed true ∨ e = .acked true → Settled { w with
      files := fs, wal := some o', log := log, replay := rep, held := held, trace := w.trace ++ [e] } c') :
    Inv m { w with
      files := fs, wal := some o', log := log, replay := rep, held := held, trace := w.trace ++ [e] } c' t' where
  disk := hdisk
  commit := hcommit
  whole := whole_or h.whole hwhole
  exact := hexact
  trace := h.trace.plain hp hg hf happ hacc
  object := by
    rintro _ ⟨⟩
    exact hobj
  absent := fun hn => nomatch hn
  replay := hrep
  idle := hidle
  held := fun hq r hr => happ ▸ hheld hq r hr
  settled := fun hg0 hs => hset hg0 (settles_concat hs)

/-- a position which misleads stays there until something is stored -/
theorem Inv.commit_same {o o' : SimpleWal} {fs : Files} {c' : CursorLog Bytes} (h : Inv m w c t) (ho : w.wal = some o)
    (hepoch : o'.positionEpoch = o.positionEpoch) (hfs : fs.commitValue = w.files.commitValue)
    (hent : c'.entries = c.entries) (hmark : c'.mark = c.mark) (hbase : c'.base = c.base) :
    Marked fs c' ∨ Misplaced m fs (some o') c' t := by
  rcases h.commit with hm | hm
  · left
    show fs.commitValue = span lenSize (c'.entries.take (c'.mark - c'.base))
    rw [hfs, hent, hmark, hbase]
    exact hm
  · refine Or.inr { quiet := hm.quiet, found := hfs ▸ hm.found, start := ?_, whole := hm.whole, epoch := ?_ }
    · rw [hmark, hbase]; exact hm.start
    · rintro _ ⟨⟩
      rw [hepoch]
      exact hm.epoch o ho

/-! ## Steps which leave the records alone -/

theorem Peeked.mono {o o' : SimpleWal} {w' : World} {i : ℕ} {r : Bytes} (h : Peeked m w c o i r)
    (hoff : o'.peekOffset = o.peekOffset)
    (hlen : o'.peekLen = o.peekLen) (hheld : w'.held = w.held) (hrep : w'.replay = w.replay)
    (hgen : w'.gen = w.gen) : Peeked m w' c o' i r where
  base_le := h.base_le
  le_front := h.le_front
  entry := h.entry
  offset := hoff.trans h.offset
  len := hlen.trans h.len
  held := hheld.trans h.held
  next := fun hq => by rw [hrep, hgen]; exact h.next hq

theorem ReplayInv.concat {p : Replaying} {e : Event} {w' : World} (h : ReplayInv m w c p) (hp : Plain e)
    (hs : e ≠ .replaying) (hgen : w'.gen = w.gen) (htr : w'.trace = w.trace ++ [e]) : ReplayInv m w' c p where
  gen_le := hgen ▸ h.gen_le
  fresh := fun hg => by
    have hf := h.fresh (hg.trans hgen)
    unfold Fresh at hf ⊢
    cases hpl : p.place with
    | reading => rw [hpl] at hf; exact hf
    | consuming buffer => rw [hpl] at hf; exact hf
    | ending =>
      rw [hpl] at hf
      rcases hf with hf | ⟨h1, h2, h3⟩
      · exact Or.inl hf
      · refine Or.inr ⟨h1, h2, fun hok => ?_⟩
        obtain ⟨pre, post, heq, hent, hacc, hno⟩ := h3 hok
        refine ⟨pre, post ++ [e], ?_, ?_, ?_, not_mem_concat hno hs⟩
        · rw [htr, heq, List.append_assoc, List.cons_append]
        · rw [hgen, appendedIn_concat_plain hp, hent]
        · rw [hgen, acceptedIn_concat_plain hp, hacc]
  stale := fun hg => h.stale (hgen ▸ hg)
  next := fun buffer hb => htr ▸ (h.next buffer hb).concat (hp.acceptedIn _)

/-- a step which changes the object, the `.corrupt` file and what a caller of `Peek` holds, and nothing else -/
theorem Inv.same {o o' : SimpleWal} {e : Event} {q : Option Bytes} {log : Log} {held : Option Bytes} (h : Inv m w c t)
    (ho : w.wal = some o) (hepoch : o'.positionEpoch = o.positionEpoch) (hp : Plain e)
    (hs : e ≠ .replaying) (hg : ∀ g, e.gen = some g → g ≤ w.gen) (hf : Faithful m w.trace e) (h1 : e ≠ .replayed true)
    (h2 : e ≠ .acked true) (hheld : ¬ m.quiet → ∀ r, held = some r → r ∈ c.appended)
    (hobj : ObjectInv m { w with files := { w.files with corrupt := q }, held := held } c o') :
    Ok m { w with
      files := { w.files with corrupt := q }, wal := some o', log := log, held := held, trace := w.trace ++ [e] } := by
  refine ⟨c, t, h.update rfl rfl hp hg hf (h.disk.corrupt q) (h.commit_same ho hepoch rfl rfl rfl rfl) (Or.inl rfl)
    h.exact ?_ (fun p hpr => (h.replay p hpr).concat hp hs rfl rfl) h.idle hheld fun _ hs => ?_⟩
  · refine { hobj with peek := fun hpk he => ?_ }
    obtain ⟨i, r, hpe⟩ := hobj.peek hpk he
    exact ⟨i, r, hpe.mono rfl rfl rfl rfl rfl⟩
  · exact (hs.elim h1 h2).elim

/-- an object which differs only in members that the invariant does not mention -/
theorem ObjectInv.same {o o' : SimpleWal} {w' : World} (h : ObjectInv m w c o) (hfd : o'.fd = o.fd)
    (hlock : o'.hasLock = o.hasLock)
    (hrep : o'.replaying = o.replaying) (hpend : o'.pendingReplay = o.pendingReplay)
    (hpeek : o'.peeked = true → o.peeked = true ∧ o'.peekEpoch = o.peekEpoch ∧ o'.positionEpoch = o.positionEpoch ∧
      o'.peekOffset = o.peekOffset ∧ o'.peekLen = o.peekLen) (hfiles : w'.files.wal = w.files.wal)
    (hl : w'.files.locked = w.files.locked) (hr : w'.replay = w.replay) (hgen : w'.gen = w.gen)
    (hheld : o'.peeked = true → w'.held = w.held) : ObjectInv m w' c o' where
  fd := hfd.trans h.fd
  file := hfiles ▸ h.file
  lock := by rw [hl, hlock]; exact h.lock
  replaying := by rw [hrep, hr]; exact h.replaying
  pending := fun hp => h.pending (hpend ▸ hp)
  epoch := fun hp => by
    obtain ⟨h1, h2, h3, -⟩ := hpeek hp
    rw [h2, h3]
    exact h.epoch h1
  peek := fun hp he => by
    obtain ⟨h1, h2, h3, h4, h5⟩ := hpeek hp
    obtain ⟨i, r, hpe⟩ := h.peek h1 (by rw [← h2, ← h3]; exact he)
    exact ⟨i, r, hpe.mono h4 h5 (hheld hp) hr hgen⟩

/-- an object which remembers no record any more -/
theorem ObjectInv.unpeeked {o : SimpleWal} {w' : World} {b : Bool} (h : ObjectInv m w c o) (c' : CursorLog Bytes)
    (happ : c'.appended = c.appended) (hbase : c'.base = c.base) (hwal : w'.files.wal = w.files.wal)
    (hl : w'.files.locked = w.files.locked) (hr : w'.replay = w.replay) :
    ObjectInv m w' c' { o with peeked := false, commitChecked := b } where
  fd := h.fd
  file := hwal ▸ h.file
  lock := hl.trans h.lock
  replaying := by rw [hr]; exact h.replaying
  pending := fun hp => by rw [hbase, happ]; exact h.pending hp
  epoch := fun hp => nomatch hp
  peek := fun hp => nomatch hp

/-- an object which remembers no record and has changed the position -/
theorem ObjectInv.moved {o : SimpleWal} {w' : World} {c' : CursorLog Bytes} {ep : ℕ} (h : ObjectInv m w c o)
    (happ : c'.appended = c.appended) (hbase : c'.base = c.base) (hwal : w'.files.wal = w.files.wal)
    (hrest : (w'.files.locked, w'.replay) = (w.files.locked, w.replay)) :
    ObjectInv m w' c' { o with peeked := false, positionEpoch := ep } := by
  obtain ⟨hl, hr⟩ := Prod.mk.inj hrest
  exact {
    fd := h.fd, file := hwal ▸ h.file, lock := hl.trans h.lock, replaying := by rw [hr]; exact h.replaying
    pending := fun hp => by rw [hbase, happ]; exact h.pending hp
    epoch := (fun hp => nomatch hp), peek := (fun hp => nomatch hp) }

theorem setting_ok (h : Inv m w c t) {st : Step} {f : SimpleWal → SimpleWal}
    (hf : ∀ o, f o = { o with maxSize := (f o).maxSize, fullLogged := (f o).fullLogged, logLevel := (f o).logLevel }) :
    Ok m (w.setting st (locked (WalM.setWal f))) := by
  unfold World.setting
  cases ho : w.wal with
  | none => exact ⟨c, t, h⟩
  | some o =>
    refine call_ok (wp_locked ?_)
    intro l
    show Ok m { w with
      files := w.files, wal := some (f o), log := l, trace := w.trace ++ [.configured] }
    have hobj : ObjectInv m w c (f o) := by
      rw [hf o]
      exact (h.object o ho).same rfl rfl rfl rfl (fun hp => ⟨hp, rfl, rfl, rfl, rfl⟩) rfl rfl rfl rfl fun _ => rfl
    refine h.same ho ?_ ⟨rfl, rfl⟩ (by simp) (by simp [Event.gen]) (faithful_of_plain (by simp) (by simp) _)
      (by simp) (by simp)
      h.held hobj
    rw [hf o]

/-! ## Append -/

theorem Going.append {v : ReplayVars} {i : ℕ} (h : Going m c v i) (hv : c.Valid) (x : Bytes) :
    Going m (c.append x) v i :=
  { h with
    offset := by
      have hi := (hv.reader_le i h.reader).2.trans hv.front_le
      rw [offset_append hv hi]
      exact h.offset }

theorem getElem?_append_entry {i : ℕ} {r : Bytes} (hr : c.appended[i]? = some r) (x : Bytes) :
    (c.append x).appended[i]? = some r := by
  show (c.appended ++ [x])[i]? = some r
  rw [List.getElem?_append_left (List.getElem?_eq_some_iff.1 hr).1]
  exact hr

theorem Peeked.append {o o' : SimpleWal} {w' : World} {i : ℕ} {r : Bytes} (h : Peeked m w c o i r) (hv : c.Valid)
    (x : Bytes) (hoff : o'.peekOffset = o.peekOffset) (hlen : o'.peekLen = o.peekLen) (hheld : w'.held = w.held)
    (hrep : w'.replay = w.replay) (hgen : w'.gen = w.gen) : Peeked m w' (c.append x) o' i r :=
  { h.mono hoff hlen hheld hrep hgen with
    entry := getElem?_append_entry h.entry x
    offset := by
      rw [offset_append hv (h.le_front.trans hv.front_le), hoff]
      exact h.offset }

theorem ReplayInv.append {p : Replaying} {w' : World} {x : Bytes} (h : ReplayInv m w c p) (hv : c.Valid) (hx : x ≠ [])
    (hgen : w'.gen = w.gen) (htr : w'.trace = w.trace ++ [.appended w.gen x true]) :
    ReplayInv m w' (c.append x) p where
  gen_le := hgen ▸ h.gen_le
  fresh := fun hg => by
    have hf := h.fresh (hg.trans hgen)
    unfold Fresh at hf ⊢
    cases hpl : p.place with
    | reading =>
      rw [hpl] at hf
      obtain ⟨i, hi⟩ := hf
      exact ⟨i, hi.append hv x⟩
    | consuming buffer =>
      rw [hpl] at hf
      obtain ⟨i, hi, hr⟩ := hf
      exact ⟨i, hi.append hv x, getElem?_append_entry hr x⟩
    | ending =>
      rw [hpl] at hf
      rcases hf with ⟨i, hi⟩ | ⟨h1, h2, h3⟩
      · exact Or.inl ⟨i, hi.append hv x⟩
      · refine Or.inr ⟨h1, h2, fun hok => ?_⟩
        obtain ⟨pre, post, heq, hent, hacc, hno⟩ := h3 hok
        refine ⟨pre, post ++ [.appended w.gen x true], ?_, ?_, ?_, not_mem_concat hno (by simp)⟩
        · rw [htr, heq, List.append_assoc, List.cons_append]
        · rw [hgen, hv.append_entries, appendedIn_append, appendedIn_stored hx, hent]
        · rw [hgen, acceptedIn_append, hacc]
          rfl
  stale := fun hg => by
    obtain ⟨h1, h2, h3, h4, h5⟩ := h.stale (hgen ▸ hg)
    exact ⟨h1, h2, h3, h4, h5⟩
  next := fun buffer hb => htr ▸ (h.next buffer hb).concat rfl

theorem Inv.append {o : SimpleWal} {x : Bytes} {f' : File} {log : Log} (h : Inv m w c []) (ho : w.wal = some o)
    (hx : Fits lenSize x) (hb : f'.bytes = w.files.walBytes ++ frame lenSize x) :
    Inv m { w with
      files := w.files.withWal f'
      wal := some { o with fullLogged := false, pendingReplay := true }
      log := log
      trace := w.trace ++ [.appended w.gen x true] } (c.append x) [] := by
  have hv := h.disk.valid
  have hne : x ≠ [] := fun h0 => by rw [h0] at hx; exact absurd hx.1 (lt_irrefl 0)
  have hplain : Faithful m w.trace (.appended w.gen x true) := faithful_of_plain (by simp) (by simp) _
  constructor
  · refine ⟨?_, hv.append x⟩
    rw [walBytes_withWal, hb]
    exact parses_append hv h.disk.stored hx
  · rcases h.commit with hm | hm
    · left
      show w.files.commitValue = offset lenSize (c.append x) c.mark
      rw [offset_append hv (hv.mark_front.trans hv.front_le)]
      exact hm
    · refine Or.inr { quiet := hm.quiet, found := hm.found, start := hm.start, whole := rfl, epoch := ?_ }
      rintro _ ⟨⟩
      exact hm.epoch o ho
  · exact Or.inl rfl
  · exact fun hq => (h.exact hq).append hv x
  · refine h.trace.concat (fun g' hg' => ?_) hplain ?_ (List.append_nil _).symm
    · cases hg'; exact le_rfl
    · rw [appendedIn_stored hne]; rfl
  · rintro _ ⟨⟩
    have hobj := h.object o ho
    refine {
      fd := hobj.fd, file := ⟨f', rfl⟩, lock := hobj.lock, replaying := hobj.replaying, pending := ?_
      epoch := hobj.epoch, peek := ?_ }
    · exact fun hp => nomatch hp
    · intro hp he
      obtain ⟨i, r, hpe⟩ := hobj.peek hp he
      exact ⟨i, r, hpe.append hv x rfl rfl rfl rfl rfl⟩
  · exact fun hn => nomatch hn
  · exact fun p hp => (h.replay p hp).append hv hne rfl rfl
  · exact h.idle
  · exact fun hq r hr => List.mem_append_left _ (h.held hq r hr)
  · exact fun _ hs => absurd hs (not_settles_concat (by simp) (by simp))

/-- a part of a record is left behind: the cursor log is the same, with more bytes behind it -/
theorem Inv.torn {o : SimpleWal} {x p : Bytes} {f' : File} {log : Log} {g : ℕ} (h : Inv m w c []) (ho : w.wal = some o)
    (hm : m.torn) (hq : ¬ m.quiet) (hg : g ≤ w.gen) (hx : Fits lenSize x) (hp : p <+: frame lenSize x)
    (hne : p ≠ frame lenSize x) (hb : f'.bytes = w.files.walBytes ++ p) :
    Inv m { w with
      files := w.files.withWal f', wal := some o, log := log, trace := w.trace ++ [.appended g x false] } c p := by
  have hplain : Plain (.appended g x false) := ⟨rfl, rfl⟩
  constructor
  · exact h.disk.torn hx hp hne hb
  · exact Or.inl (h.marked hq)
  · exact Or.inr hm
  · exact fun hq' => absurd hq' hq
  · refine h.trace.plain hplain (fun g' hg' => ?_) (faithful_of_plain (by simp) (by simp) _) rfl rfl
    cases hg'; exact hg
  · rintro _ ⟨⟩
    have hobj := h.object o ho
    refine {
      fd := hobj.fd, file := ⟨f', rfl⟩, lock := hobj.lock, replaying := hobj.replaying, pending := hobj.pending
      epoch := hobj.epoch, peek := ?_ }
    intro hpk he
    obtain ⟨i, r, hpe⟩ := hobj.peek hpk he
    exact ⟨i, r, hpe.mono rfl rfl rfl rfl rfl⟩
  · exact fun hn => nomatch hn
  · exact fun p' hp' => (h.replay p' hp').concat hplain (by simp) rfl rfl
  · exact h.idle
  · exact h.held
  · exact fun _ hs => absurd hs (not_settles_concat (by simp) (by simp))

theorem append_ok (h : Inv m w c t) {st : Step} {data : Payload} (hact : st.action = .append data)
    (ha : Allowed m w st) : Ok m (w.append st data) := by
  unfold World.append
  cases ho : w.wal with
  | none => exact ⟨c, t, h⟩
  | some o =>
    have hobj := h.object o ho
    obtain ⟨hwhole, hclean⟩ := ha.append data hact
    have hnil : data.bytes ≠ [] → t = [] := fun hne => h.whole_of fun hm => hwhole hm hne
    have hfit : data.bytes ≠ [] → Fits lenSize data.bytes := fun hne => ⟨List.length_pos_iff.2 hne, data.len_lt⟩
    have hgen : ∀ g ok, (Event.appended w.gen data.bytes ok).gen = some g → g ≤ w.gen := fun g ok hg => by
      cases hg; exact le_rfl
    have hplain : ∀ ok, Faithful m w.trace (.appended w.gen data.bytes ok) := fun ok =>
      faithful_of_plain (by simp) (by simp) _
    refine call_ok (wp_append (fun _ => hobj.file) (fun hemp => ?_) (fun _ hne f' l k _ hb _ => ?_)
      (fun _ b l k _ => ?_) (fun _ hne p f' l k _ ho' hp hpne hb => ?_)
      fun hcr => ⟨?_, fun _ hne p f' hp hpne hb log => ?_⟩)
    · exact h.same ho rfl ⟨by simp [Event.appended?, hemp], rfl⟩ (by simp) (hgen · true) (hplain true) (by simp)
        (by simp) h.held
        hobj
    · obtain rfl := hnil hne
      exact ⟨_, _, h.append ho (hfit hne) hb⟩
    · refine h.same ho rfl ⟨rfl, rfl⟩ (by simp) (hgen · false) (hplain false) (by simp) (by simp) h.held ?_
      exact hobj.same rfl rfl rfl rfl (fun hp => ⟨hp, rfl, rfl, rfl, rfl⟩) rfl rfl rfl rfl fun _ => rfl
    · have hm : m.torn := by
        by_contra hm
        exact ho' (hclean hm).1
      obtain rfl := hnil hne
      exact ⟨_, _, h.torn ho hm (ha.noisy ho') le_rfl (hfit hne) hp hpne hb⟩
    · exact h.left_same (ha.cut hcr) w.files.corrupt
    · have hm : m.torn := by
        by_contra hm
        exact hcr (hclean hm).2
      obtain rfl := hnil hne
      refine killed_ok (ha.cut hcr) (h.disk.torn (hfit hne) hp hpne hb) (h.marked (ha.cut hcr)) (Or.inr hm) ?_
      rw [List.append_nil]
      exact h.trace

/-! ## Replay -/

theorem replayStart_ok (h : Inv m w c t) {st : Step} (hact : st.action = .replayStart) (ha : Allowed m w st) :
    Ok m (w.replayStart st) := by
  unfold World.replayStart
  cases ho : w.wal with
  | none => exact ⟨c, t, h⟩
  | some o =>
    have hobj := h.object o ho
    have hv := h.disk.valid
    refine call_ok (wp_replayStart (fun hr off l k _ ht => ?_) (fun _ l k _ => ?_) fun hcr =>
      h.left_same (ha.cut hcr) w.files.corrupt)
    · obtain ⟨i, hb, hm, hoff, hq⟩ := h.takes ha (Or.inl hact) ho ht
      have hnone : w.replay = none := by
        have hr' : o.replaying = false := hr
        rw [hobj.replaying] at hr'
        simpa using hr'
      have hfresh : ReplayInv m { w with
          files := w.files
          wal := some { o with replaying := true, commitChecked := true }
          log := l
          replay := some ⟨{ newOffset := off }, .reading, w.gen⟩
          trace := w.trace ++ [.replaying] } (c.read i) ⟨{ newOffset := off }, .reading, w.gen⟩ := by
        refine ⟨le_rfl, fun _ => ⟨i, ?_⟩, fun hn => absurd rfl hn, fun _ hb => nomatch hb⟩
        exact ⟨rfl, hoff, rfl, rfl, fun hq' _ => (hq hq').symm, fun hd => nomatch hd⟩
      refine ⟨c.read i, t, h.update rfl rfl ⟨rfl, rfl⟩ (by simp [Event.gen]) (faithful_of_plain (by simp) (by simp) _)
        ⟨h.disk.stored, hv.read hb (hm.trans hv.mark_front)⟩ (h.commit_same ho rfl rfl rfl rfl rfl) (Or.inl rfl)
        (fun hq' => ?_) ?_ ?_ (fun hn => nomatch hn) h.held fun _ hs => ?_⟩
      · rw [hq hq']
        exact (h.exact hq').read (h.idle hnone)
      · refine {
          fd := hobj.fd, file := hobj.file, lock := hobj.lock, replaying := rfl, pending := hobj.pending,
          epoch := hobj.epoch, peek := ?_ }
        intro hp he
        obtain ⟨j, r, hpe⟩ := hobj.peek hp he
        refine ⟨j, r, { hpe with next := fun hq' => Or.inl ?_ }⟩
        rcases hpe.next hq' with hj | ⟨p, hp', -⟩
        · exact hj
        · rw [hnone] at hp'
          cases hp'
      · rintro _ ⟨⟩
        exact hfresh
      · rcases hs with hs | hs <;> cases hs
    · exact h.same ho rfl ⟨rfl, rfl⟩ (by simp) (by simp [Event.gen]) (faithful_of_plain (by simp) (by simp) _)
        (by simp) (by simp)
        h.held hobj

/-- the WAL file where `ReadRecord` empties it: as it is, or with its unreadable rest copied away -/
theorem Disk.at_end {fs fs' : Files} {i : ℕ} {off : ℕ} {st : Step} (h : Disk fs c t) (ha : Allowed m w st)
    (hb : c.base ≤ i) (hf : i ≤ c.front) (hoff : off = offset lenSize c i)
    (hfs : (off = fs.walBytes.length ∧ fs' = fs) ∨
      (off < fs.walBytes.length ∧ fs' = fs.quarantined (fs.walBytes.drop off) ∧
      (parseFrame lenSize (fs.walBytes.drop off) = none ∨ ∃ n, Fault.short n ∈ st.oracle .preadLen))) :
    Disk fs' c t ∧ fs'.commit = fs.commit ∧ fs'.wal = fs.wal ∧ fs'.locked = fs.locked ∧
      c.front = c.appended.length := by
  rcases hfs with ⟨heq, rfl⟩ | ⟨-, rfl, hbad⟩
  · exact ⟨h, rfl, rfl, rfl, h.all_accepted hb hf (Or.inl (hoff ▸ heq))⟩
  · refine ⟨h.quarantined _, rfl, rfl, rfl, ?_⟩
    rcases hbad with hbad | ⟨n, hn⟩
    · exact h.all_accepted hb hf (Or.inr (hoff ▸ hbad))
    · exact absurd hn (ha.preadLen n)

/-- the object after the WAL was emptied -/
theorem ObjectInv.cleared {o o' : SimpleWal} {w' : World} {c' : CursorLog Bytes} (h : ObjectInv m w c o)
    (hfd : o'.fd = o.fd) (hlock : o'.hasLock = o.hasLock) (hrep : o'.replaying = o.replaying)
    (hpeek : o'.peeked = false) (hwal : w'.files.wal = w.files.wal.map (·.truncate 0))
    (hl : w'.files.locked = w.files.locked) (hr : w'.replay.isSome = w.replay.isSome)
    (hbase : c'.base = c'.appended.length) : ObjectInv m w' c' o' where
  fd := hfd.trans h.fd
  file := by
    obtain ⟨f, hf⟩ := h.file
    exact ⟨f.truncate 0, by rw [hwal, hf]; rfl⟩
  lock := by rw [hl, hlock]; exact h.lock
  replaying := by rw [hrep, hr]; exact h.replaying
  pending := fun _ => hbase
  epoch := fun hp => by rw [hpeek] at hp; cases hp
  peek := fun hp => by rw [hpeek] at hp; cases hp

theorem Inv.going_reader {v : ReplayVars} {i : ℕ} (h : Inv m w c t) (hgo : Going m c v i) : c.base ≤ i ∧ i ≤ c.front :=
  h.disk.valid.reader_le i hgo.reader

theorem replayReadNext_cleared {v : ReplayVars} {g : ℕ} {b : Bool} (w : World) (hch : v.changed = false) :
    w.replayReadNext g ({ v with cleared := true, clearOk := b }, none) = { w with
      replay := some ⟨{ v with cleared := true, clearOk := b }, .ending, w.gen⟩
      trace := w.trace ++ [if b then .emptied else .stopped] } := by
  simp [World.replayReadNext, World.note, hch]

theorem replayReadNext_stopped {v : ReplayVars} {g : ℕ} (w : World) (hcl : v.cleared = false)
    (hch : v.changed = false) :
    w.replayReadNext g ({ v with clearOk := true }, none) = { w with
      replay := some ⟨{ v with clearOk := true }, .ending, w.gen⟩, trace := w.trace ++ [.stopped] } := by
  simp [World.replayReadNext, World.note, hch, hcl]

theorem Faithful.delivered {tr : List Event} {g : ℕ} {r : Bytes} (h : Next m tr g r) :
    Faithful m tr (.delivered g r) := by
  rintro g' r' (h' | h')
  · cases h'; exact h
  · cases h'

theorem Faithful.accepted {tr : List Event} {g : ℕ} {r : Bytes} (h : Next m tr g r) :
    Faithful m tr (.accepted g r) := by
  rintro g' r' (h' | h')
  · cases h'
  · cases h'; exact h

/-- the WAL could not be emptied: the replay is over, and nothing was removed -/
theorem Inv.clear_failed {v : ReplayVars} {o : SimpleWal} {fs : Files} {log : Log}
    (h : Inv m { w with replay := some ⟨v, .reading, w.gen⟩ } c t) (c' : CursorLog Bytes) (ho : w.wal = some o)
    (hq : ¬ m.quiet)
    (happ : c'.appended = c.appended) (hacc : c'.accepted = c.accepted) (hbase : c'.base = c.base)
    (hfront : c'.front = c.front) (hdisk : Disk fs c' t) (hmark : Marked fs c') (hwal : fs.wal = w.files.wal)
    (hlocked : fs.locked = w.files.locked) :
    Ok m { w with
      files := fs
      wal := some o
      log := log
      replay := some ⟨{ v with cleared := true, clearOk := false }, .ending, w.gen⟩
      trace := w.trace ++ [.stopped] } := by
  have hobj := h.object o ho
  refine ⟨c'.stop, t, h.update happ hacc ⟨rfl, rfl⟩ (by simp [Event.gen]) (faithful_of_plain (by simp) (by simp) _)
    hdisk.stop (Or.inl hmark) (Or.inl rfl) (fun hq' => absurd hq' hq) ?_ ?_
      (fun hn => nomatch hn) h.held fun _ hs => ?_⟩
  · refine {
      fd := hobj.fd, file := hwal ▸ hobj.file, lock := hlocked.trans hobj.lock, replaying := hobj.replaying,
      pending := ?_, epoch := hobj.epoch, peek := ?_ }
    · intro hp
      show c'.base = c'.appended.length
      rw [hbase, happ]
      exact hobj.pending hp
    · intro hp he
      obtain ⟨j, r, hpe⟩ := hobj.peek hp he
      have hent : c'.stop.entries = c.entries := by
        show c'.appended.drop c'.base = c.appended.drop c.base
        rw [happ, hbase]
      refine ⟨j, r, hbase.trans_le hpe.base_le, hpe.le_front.trans_eq hfront.symm, ?_, ?_, hpe.len, hpe.held,
        fun hq' => absurd hq' hq⟩
      · show c'.appended[j]? = some r
        rw [happ]; exact hpe.entry
      · show o.peekOffset = span lenSize (c'.stop.entries.take (j - c'.base))
        rw [hent, hbase]
        exact hpe.offset
  · rintro _ ⟨⟩
    exact ⟨le_rfl, fun _ => Or.inr ⟨rfl, rfl, fun hb => nomatch hb⟩, fun hn => absurd rfl hn, fun _ hb => nomatch hb⟩
  · rcases hs with hs | hs <;> cases hs

/-- a replay which stands at a position of the WAL reads the record there, or ends and empties the WAL behind the last
one -/
theorem replayRead_going {v : ReplayVars} {g i : ℕ} {o : SimpleWal} {st : Step}
    (h : Inv m { w with replay := some ⟨v, .reading, w.gen⟩ } c t) (ho : w.wal = some o) (hgo : Going m c v i)
    (ha : Allowed m w st) :
    wp (Wal.replayRead v) (fun a s => Ok m ((w.after s).replayReadNext g a)) (fun s' => Left m w [] s'.files)
      (w.sys o st) := by
  obtain ⟨hb, hf⟩ := h.going_reader hgo
  have hv := h.disk.valid
  have hobj := h.object o ho
  have hlen := offset_le h.disk.stored i
  refine wp_replayRead (fun r rest hparse _ l k _ => ?_) (fun fs hfs l k hk => ?_) (fun hlt => ?_)
    (fun q l k _ hno => ?_) fun hcr q => h.left_same (ha.cut hcr) q
  · -- the record at the position
    have hparse' : parseFrame lenSize (w.files.walBytes.drop (offset lenSize c i)) = some (r, rest) := by
      rw [← hgo.offset]
      exact hparse
    have hr : c.appended[i]? = some r := entry_of_parse h.disk.stored hb (hf.trans hv.front_le) hparse'
    have hnext := h.next hr fun hq => (h.exact hq).reading i hgo.reader
    refine ⟨c, t, h.update rfl rfl ⟨rfl, rfl⟩ ?_ (.delivered hnext) h.disk (h.commit_same ho rfl rfl rfl rfl rfl)
      (Or.inl rfl) h.exact ?_ ?_ (fun hn => by cases hn) h.held fun _ hs => ?_⟩
    · rintro g' ⟨⟩
      exact le_rfl
    · refine {
        fd := hobj.fd, file := hobj.file, lock := hobj.lock, replaying := hobj.replaying,
        pending := hobj.pending, epoch := hobj.epoch, peek := ?_ }
      intro hp he
      obtain ⟨j, r', hpe⟩ := hobj.peek hp he
      refine ⟨j, r', { hpe with next := fun hq => (hpe.next hq).imp_right ?_ }⟩
      rintro ⟨_, ⟨⟩, hp'⟩
      exact ⟨_, rfl, hp'⟩
    · rintro _ ⟨⟩
      refine ⟨le_rfl, fun _ => ⟨i, ?_, hr⟩, fun hn => absurd rfl hn, ?_⟩
      · exact ⟨hgo.reader, hgo.offset, hgo.cleared, hgo.changed, hgo.start, hgo.last⟩
      · rintro _ ⟨⟩
        exact hnext.concat rfl
    · rcases hs with hs | hs <;> cases hs
  · -- nothing more to read: the WAL is emptied
    obtain ⟨hdisk, hcom, hwal, hlock, hall⟩ := h.disk.at_end ha hb hf hgo.offset hfs
    have hval : fs.commitValue = w.files.commitValue := by rw [Files.commitValue, hcom]; rfl
    refine wp_clearInternal (fun hfd => ?_) (fun _ l k _ l => ?_) (fun _ l k _ hno l => ?_) (fun _ l k _ hno l => ?_)
      (fun _ l k _ hno => ?_) fun hcr => ?_
    · have hfd' : o.fd = false := hfd
      rw [hobj.fd] at hfd'
      cases hfd'
    · rw [replayReadNext_cleared _ hgo.changed]
      refine ⟨c.empty, [], h.update rfl rfl ⟨rfl, rfl⟩ (by simp [Event.gen]) (faithful_of_plain (by simp) (by simp) _)
        (hdisk.cleared hall) (Or.inl marked_cleared) (Or.inr rfl) (fun hq => (h.exact hq).empty hall) ?_ ?_
        (fun hn => by cases hn) h.held fun _ hs => ?_⟩
      · exact hobj.cleared rfl rfl rfl rfl (by rw [← hwal]; rfl) hlock rfl rfl
      · rintro _ ⟨⟩
        refine ⟨le_rfl, fun _ => Or.inr ⟨rfl, rfl, fun _ => ⟨w.trace, [], rfl, ?_, rfl, List.not_mem_nil⟩⟩,
          fun hn => absurd rfl hn, ?_⟩
        · rw [CursorLog.empty_entries]; rfl
        · exact fun _ hb => by cases hb
      · rcases hs with hs | hs <;> cases hs
    · rw [replayReadNext_cleared _ hgo.changed]
      have hq := ha.noisy fun h0 => hno (hk.reliable h0)
      exact h.clear_failed c ho hq rfl rfl rfl rfl hdisk (hval.trans (h.marked hq)) hwal hlock
    · rw [replayReadNext_cleared _ hgo.changed]
      have hq := ha.noisy fun h0 => hno (hk.reliable h0)
      exact h.clear_failed (c.store c.base) ho hq rfl rfl rfl rfl (hdisk.forget none)
        (marked_forget (Or.inl rfl)) hwal hlock
    · exact absurd (hk.reliable ha.rewind) hno
    · exact h.left_clear (ha.cut fun h0 => hcr (hk.alive h0)) hdisk hval hall
  · have hlt' : w.files.walBytes.length < v.newOffset := hlt
    rw [hgo.offset] at hlt'
    exact absurd hlt' (Nat.not_lt.2 hlen)
  · -- a call failed: the loop stops where it is
    obtain ⟨call, -, hno⟩ := hno
    have hq := ha.noisy hno
    rw [replayReadNext_stopped _ hgo.cleared hgo.changed]
    refine ⟨c, t, h.update rfl rfl ⟨rfl, rfl⟩ (by simp [Event.gen]) (faithful_of_plain (by simp) (by simp) _)
      (h.disk.corrupt q) (Or.inl (h.marked hq)) (Or.inl rfl) (fun hq' => absurd hq' hq) ?_ ?_ (fun hn => by cases hn)
      h.held fun _ hs => ?_⟩
    · refine {
        fd := hobj.fd, file := hobj.file, lock := hobj.lock, replaying := hobj.replaying,
        pending := hobj.pending, epoch := hobj.epoch, peek := ?_ }
      intro hp he
      obtain ⟨j, r, hpe⟩ := hobj.peek hp he
      exact ⟨j, r, { hpe with next := fun hq' => absurd hq' hq }⟩
    · rintro _ ⟨⟩
      refine ⟨le_rfl, fun _ => Or.inl ⟨i, ?_⟩, fun hn => absurd rfl hn, (fun _ hb => by cases hb)⟩
      exact ⟨hgo.reader, hgo.offset, hgo.cleared, hgo.changed, hgo.start, hgo.last⟩
    · rcases hs with hs | hs <;> cases hs

theorem replayReadNext_changed {v : ReplayVars} {g : ℕ} (w : World) (hcl : v.cleared = false) :
    w.replayReadNext g ({ v with changed := true, clearOk := true }, none) = { w with
      replay := some ⟨{ v with changed := true, clearOk := true }, .ending, g⟩, trace := w.trace ++ [.stopped] } := by
  simp [World.replayReadNext, World.note, hcl]

/-- in a stale replay, no record was accepted since the `Clear` -/
theorem Inv.stale_start {p : Replaying} (h : Inv m w c t) (hs : Stale m c p) : c.base = 0 ∧ c.mark = 0 := by
  have h1 := h.disk.valid.base_mark
  have h2 := h.disk.valid.mark_front
  have h3 := hs.front
  omega

/-- a stale replay which starts at offset 0 is at the right place: it reads what was appended since the `Clear` -/
theorem Inv.stale_zero {v : ReplayVars} {g : ℕ} (h : Inv m w c t) (hp : w.replay = some ⟨v, .reading, g⟩)
    (hg : g ≠ w.gen) (hzero : v.newOffset = 0) :
    Inv m { w with replay := some ⟨v, .reading, w.gen⟩ } (c.read 0) t ∧ Going m (c.read 0) v 0 := by
  have hs := (h.replay _ hp).stale hg
  obtain ⟨hb, hm⟩ := h.stale_start hs
  obtain ⟨hcl, hch⟩ := hs.going (by simp)
  have hgo : Going m (c.read 0) v 0 := by
    refine ⟨rfl, ?_, hcl, hch, fun _ _ => hm, fun hd => ?_⟩
    · rw [hzero, offset_read, offset_le_base (Nat.zero_le _)]
    · have hpos : 0 < v.newOffset := hs.moved (by simp) hd
      omega
  refine ⟨?_, hgo⟩
  constructor
  · exact ⟨h.disk.stored, h.disk.valid.read hb.le (Nat.zero_le _)⟩
  · rcases h.commit with hc | hc
    · exact Or.inl hc
    · exact Or.inr ⟨hc.quiet, hc.found, hc.start, hc.whole, hc.epoch⟩
  · exact h.whole
  · intro hq
    have := (h.exact hq).read hs.reader
    rwa [hm] at this
  · exact h.trace.of_eq rfl rfl
  · intro o ho
    have hobj := h.object o ho
    refine {
      fd := hobj.fd, file := hobj.file, lock := hobj.lock, replaying := ?_, pending := hobj.pending
      epoch := hobj.epoch, peek := ?_ }
    · rw [hobj.replaying, hp]; rfl
    · intro hpk he
      obtain ⟨j, r, hpe⟩ := hobj.peek hpk he
      refine ⟨j, r, { hpe with next := fun hq => Or.inl ?_ }⟩
      rcases hpe.next hq with hj | ⟨p, hp', hpg, -⟩
      · exact hj
      · rw [hp] at hp'
        cases hp'
        exact absurd hpg hg
  · intro hn
    have hw : w.wal = none := hn
    rw [(h.absent hw).2] at hp
    cases hp
  · rintro _ ⟨⟩
    exact ⟨le_rfl, fun _ => ⟨0, hgo⟩, fun hn => absurd rfl hn, fun _ hb => nomatch hb⟩
  · exact fun hn => nomatch hn
  · exact h.held
  · exact h.settled

/-- a stale replay which is behind the end of the WAL notices it -/
theorem replayRead_behind {v : ReplayVars} {g : ℕ} {o : SimpleWal} {st : Step} (h : Inv m w c t) (ho : w.wal = some o)
    (hp : w.replay = some ⟨v, .reading, g⟩) (hg : g ≠ w.gen) (hlt : w.files.walBytes.length < v.newOffset)
    (ha : Allowed m w st) :
    wp (Wal.replayRead v) (fun a s => Ok m ((w.after s).replayReadNext g a)) (fun s' => Left m w [] s'.files)
      (w.sys o st) := by
  have hs := (h.replay _ hp).stale hg
  have hobj := h.object o ho
  refine wp_replayRead (fun r rest _ hle => ?_) (fun fs hfs => ?_) (fun _ l k _ => ?_)
    (fun q l k _ hno => ?_) fun hcr => absurd hs.quiet (ha.cut hcr)
  · have hle' : v.newOffset + (lenSize + r.length) ≤ w.files.walBytes.length := hle
    omega
  · exfalso
    have hlt' : ¬ v.newOffset ≤ w.files.walBytes.length := by omega
    rcases hfs with ⟨heq, -⟩ | ⟨hlt2, -⟩
    · exact hlt' heq.le
    · exact hlt' hlt2.le
  · rw [replayReadNext_changed _ (hs.going (by simp)).1]
    refine ⟨c, t, h.update rfl rfl ⟨rfl, rfl⟩ (by simp [Event.gen]) (faithful_of_plain (by simp) (by simp) _) h.disk
      (h.commit_same ho rfl rfl rfl rfl rfl) (Or.inl rfl) h.exact ?_ ?_ (fun hn => nomatch hn) h.held fun _ hs => ?_⟩
    · refine {
        fd := hobj.fd, file := hobj.file, lock := hobj.lock, replaying := ?_, pending := hobj.pending,
        epoch := hobj.epoch, peek := ?_ }
      · show o.replaying = true
        rw [hobj.replaying, hp]; rfl
      · intro hpk he
        obtain ⟨j, r, hpe⟩ := hobj.peek hpk he
        refine ⟨j, r, { hpe with next := fun hq => Or.inl ?_ }⟩
        rcases hpe.next hq with hj | ⟨p, hp', hpg, -⟩
        · exact hj
        · rw [hp] at hp'
          cases hp'
          exact absurd hpg hg
    · rintro _ ⟨⟩
      exact ⟨(h.replay _ hp).gen_le, fun he => absurd he hg,
        fun _ => ⟨hs.quiet, hs.reader, hs.front, fun hn => absurd rfl hn, fun hn => absurd rfl hn⟩,
        fun _ hb => nomatch hb⟩
    · rcases hs with hs | hs <;> cases hs
  · obtain ⟨call, -, hno⟩ := hno
    exact absurd hs.quiet (ha.noisy hno)

theorem replayRead_ok (h : Inv m w c t) {st : Step} (hact : st.action = .replayRead) (ha : Allowed m w st) :
    Ok m (w.replayRead st) := by
  unfold World.replayRead
  split
  · rename_i o v g ho hp
    refine call_ok ?_
    by_cases hg : g = w.gen
    · obtain ⟨i, hgo⟩ := (h.replay _ hp).fresh hg
      have hw : ({ w with replay := some ⟨v, .reading, w.gen⟩ } : World) = w := by rw [hg] at hp; rw [← hp]
      exact replayRead_going (hw.symm ▸ h) ho hgo ha
    · rcases ha.reading v g hact hp hg with hzero | hlt
      · obtain ⟨hinv, hgo⟩ := h.stale_zero hp hg hzero
        exact replayRead_going hinv ho hgo ha
      · exact replayRead_behind h ho hp hg hlt ha
  · exact ⟨c, t, h⟩

/-- the position behind an accepted record -/
theorem Going.accept {v : ReplayVars} {i : ℕ} {r : Bytes} (h : Going m c v i) (hb : c.base ≤ i)
    (hr : c.appended[i]? = some r) : Going m ((c.accept i r).read (i + 1)) (v.accept r.length) (i + 1) where
  reader := rfl
  offset := by
    rw [offset_read, offset_accept, offset_succ hb hr, ← h.offset]
    rfl
  cleared := h.cleared
  changed := h.changed
  start := fun _ hd => nomatch hd
  last := fun _ => ⟨rfl, Nat.lt_succ_of_le hb⟩

/-- the consumer accepted a record of the content of the WAL -/
theorem Inv.accept {v : ReplayVars} {o : SimpleWal} {i : ℕ} {r : Bytes} (h : Inv m w c t) (ho : w.wal = some o)
    (hp : w.replay = some ⟨v, .consuming r, w.gen⟩) (hgo : Going m c v i) (hr : c.appended[i]? = some r) :
    Inv m { w with
      replay := some ⟨v.accept r.length, .reading, w.gen⟩, trace := w.trace ++ [.accepted w.gen r] }
      ((c.accept i r).read (i + 1)) t := by
  have hv := h.disk.valid
  obtain ⟨hb, hf⟩ := h.going_reader hgo
  have hnext := (h.replay _ hp).next r rfl
  have hva := hv.accept hf hr
  constructor
  · refine ⟨h.disk.stored, hva.read (Nat.le_succ_of_le hb) ?_⟩
    exact le_max_right _ _
  · rcases h.commit with hc | hc
    · exact Or.inl hc
    · exact Or.inr ⟨hc.quiet, hc.found, hc.start, hc.whole, hc.epoch⟩
  · exact h.whole
  · intro hq
    have hex := h.exact hq
    obtain rfl := hex.reading i hgo.reader
    refine ⟨hex.accept hr, (fun hn => nomatch hn), ?_⟩
    rintro _ ⟨⟩
    show c.front + 1 = max c.front (c.front + 1)
    omega
  · refine h.trace.concat (fun g' hg' => ?_) (.accepted hnext) (List.append_nil _).symm ?_
    · cases hg'; exact le_rfl
    · rw [acceptedIn_accepted]; rfl
  · intro o' ho'
    have hobj := h.object o' ho'
    refine {
      fd := hobj.fd, file := hobj.file, lock := hobj.lock, replaying := ?_, pending := hobj.pending
      epoch := hobj.epoch, peek := ?_ }
    · rw [hobj.replaying, hp]; rfl
    · intro hpk he
      obtain ⟨j, r', hpe⟩ := hobj.peek hpk he
      refine ⟨j, r', hpe.base_le, hpe.le_front.trans (le_max_left _ _), hpe.entry, hpe.offset, hpe.len, hpe.held,
        fun _ => Or.inr ⟨_, rfl, rfl, rfl, hgo.cleared, hgo.changed⟩⟩
  · intro hn
    have hw : w.wal = none := hn
    rw [ho] at hw
    cases hw
  · rintro _ ⟨⟩
    exact ⟨le_rfl, fun _ => ⟨i + 1, hgo.accept hb hr⟩, fun hn => absurd rfl hn, fun _ hb => nomatch hb⟩
  · exact fun hn => nomatch hn
  · exact h.held
  · exact fun _ hs => absurd hs (not_settles_concat (by simp) (by simp))

/-- the thread in `Replay` leaves: `ep` counts the changes of the position up to now -/
theorem Inv.leave {e : Event} {fs : Files} {log : Log} {ep : ℕ} (h : Inv m w c t) (c' : CursorLog Bytes)
    (o : SimpleWal) (ho : w.wal = some o) (happ : c'.appended = c.appended) (hacc : c'.accepted = c.accepted)
    (hbase : c'.base = c.base) (hfront : c'.front = c.front) (hreader : c'.reader = none) (hp : Plain e)
    (hg : ∀ g, e.gen = some g → g ≤ w.gen) (hf : Faithful m w.trace e) (hdisk : Disk fs c' t)
    (hcommit : Marked fs c' ∨ Misplaced m fs (some { o with replaying := false, positionEpoch := ep }) c' t)
    (hexact : m.quiet → c'.Exact) (hwal : fs.wal = w.files.wal) (hlocked : fs.locked = w.files.locked)
    (hepoch : ep = o.positionEpoch + 1 ∨ ep = o.positionEpoch ∧ (m.quiet → ∀ p, w.replay = some p → p.gen = w.gen →
      p.vars.cleared = false → p.vars.changed = false → p.vars.didReplay = false))
    (hset : w.gen = 0 → e = .replayed true ∨ e = .acked true →
      Settled { w with trace := w.trace ++ [e] } c') :
    Ok m { w with
      files := fs, wal := some { o with replaying := false, positionEpoch := ep }, log := log, replay := none
      trace := w.trace ++ [e] } := by
  have hobj := h.object o ho
  have hent : c'.entries = c.entries := by
    show c'.appended.drop c'.base = c.appended.drop c.base
    rw [happ, hbase]
  refine ⟨c', t, h.update happ hacc hp hg hf hdisk hcommit (Or.inl rfl) hexact ?_ (fun p hn => nomatch hn)
    (fun _ => hreader) h.held hset⟩
  refine {
    fd := hobj.fd, file := hwal ▸ hobj.file, lock := hlocked.trans hobj.lock, replaying := rfl, pending := ?_
    epoch := ?_, peek := ?_ }
  · intro hpend
    rw [hbase, happ]
    exact hobj.pending hpend
  · intro hpk
    have hle : o.peekEpoch ≤ o.positionEpoch := hobj.epoch hpk
    show o.peekEpoch ≤ ep
    rcases hepoch with hep | ⟨hep, -⟩ <;> omega
  · intro hpk he
    have he' : o.peekEpoch = ep := he
    rcases hepoch with hep | ⟨hep, hno⟩
    · -- a position was stored: the record of `Peek` is not the one at the position any more
      have hle : o.peekEpoch ≤ o.positionEpoch := hobj.epoch hpk
      omega
    · obtain ⟨j, r, hpe⟩ := hobj.peek hpk (he'.trans hep)
      refine ⟨j, r, hbase.trans_le hpe.base_le, hpe.le_front.trans_eq hfront.symm, ?_, ?_, hpe.len, hpe.held, ?_⟩
      · rw [happ]; exact hpe.entry
      · show o.peekOffset = span lenSize (c'.entries.take (j - c'.base))
        rw [hent, hbase]
        exact hpe.offset
      · intro hq
        left
        rw [hfront]
        rcases hpe.next hq with hj | ⟨p, hp0, hg, hd, hcl, hch⟩
        · exact hj
        · rw [hno hq p hp0 hg hcl hch] at hd
          cases hd

/-- the thread in `Replay` goes on, and nothing else changes -/
theorem Inv.move {o : SimpleWal} {p p' : Replaying} {e : Event} (h : Inv m w c t) (ho : w.wal = some o)
    (hp : w.replay = some p) (hgen : p'.gen = p.gen)
    (hsame : p.gen = w.gen → p'.vars.didReplay = p.vars.didReplay ∧ p'.vars.cleared = p.vars.cleared ∧
      p'.vars.changed = p.vars.changed)
    (htrace : TraceInv m w.gen (w.trace ++ [e]) c) (h1 : e ≠ .replayed true) (h2 : e ≠ .acked true)
    (hnew : ReplayInv m { w with replay := some p', trace := w.trace ++ [e] } c p') :
    Inv m { w with replay := some p', trace := w.trace ++ [e] } c t where
  disk := h.disk
  commit := h.commit.imp id fun hc => ⟨hc.quiet, hc.found, hc.start, hc.whole, hc.epoch⟩
  whole := h.whole
  exact := h.exact
  trace := htrace
  object := fun o' ho' => by
    have hobj := h.object o' ho'
    refine {
      fd := hobj.fd, file := hobj.file, lock := hobj.lock, replaying := ?_, pending := hobj.pending
      epoch := hobj.epoch, peek := ?_ }
    · rw [hobj.replaying, hp]; rfl
    · intro hpk he
      obtain ⟨j, r, hpe⟩ := hobj.peek hpk he
      refine ⟨j, r, { hpe with next := fun hq => (hpe.next hq).imp_right ?_ }⟩
      rintro ⟨p0, hp0, hg, hd, hcl, hch⟩
      rw [hp] at hp0
      cases hp0
      obtain ⟨h1, h2, h3⟩ := hsame hg
      exact ⟨p', rfl, hgen.trans hg, h1.trans hd, h2.trans hcl, h3.trans hch⟩
  absent := fun hn => by
    have hw : w.wal = none := hn
    rw [ho] at hw
    cases hw
  replay := by
    rintro _ ⟨⟩
    exact hnew
  idle := fun hn => nomatch hn
  held := h.held
  settled := fun _ hs => absurd hs (not_settles_concat h1 h2)

/-- the consumer accepted a record which it was given before a `Clear`: it counts for the content of that time -/
theorem Inv.accept_stale {v : ReplayVars} {o : SimpleWal} {g : ℕ} {r : Bytes} (h : Inv m w c t) (ho : w.wal = some o)
    (hp : w.replay = some ⟨v, .consuming r, g⟩) (hg : g ≠ w.gen) :
    Inv m { w with
      replay := some ⟨v.accept r.length, .reading, g⟩, trace := w.trace ++ [.accepted g r] } c t := by
  have hrep := h.replay _ hp
  have hs := hrep.stale hg
  refine h.move ho hp rfl (fun hg' => absurd hg' hg) ?_ (by simp) (by simp) ?_
  · refine h.trace.concat (fun g' hg' => ?_) (.accepted (hrep.next r rfl)) (List.append_nil _).symm ?_
    · cases hg'; exact hrep.gen_le
    · rw [acceptedIn_accepted_ne hg, List.append_nil]
  · refine ⟨hrep.gen_le, fun he => absurd he hg, fun _ => ⟨hs.quiet, hs.reader, hs.front, fun _ => ?_, fun _ _ => ?_⟩,
      fun _ hb => nomatch hb⟩
    · exact hs.going (by simp)
    · exact Nat.lt_of_lt_of_le (Nat.lt_add_right _ (by decide)) (Nat.le_add_left _ _)

/-- the consumer refused the record: the loop is over -/
theorem Inv.refuse {v : ReplayVars} {o : SimpleWal} {g : ℕ} {r : Bytes} (h : Inv m w c t) (ho : w.wal = some o)
    (hp : w.replay = some ⟨v, .consuming r, g⟩) :
    Inv m { w with replay := some ⟨v, .ending, g⟩, trace := w.trace ++ [.refused] } c t := by
  have hrep := h.replay _ hp
  refine h.move ho hp rfl (fun _ => ⟨rfl, rfl, rfl⟩) ?_ (by simp) (by simp) ?_
  · exact h.trace.plain ⟨rfl, rfl⟩ (by simp [Event.gen]) (faithful_of_plain (by simp) (by simp) _) rfl rfl
  · refine ⟨hrep.gen_le, fun hg => ?_, fun hg => ?_, fun _ hb => nomatch hb⟩
    · obtain ⟨i, hgo, -⟩ := hrep.fresh hg
      exact Or.inl ⟨i, hgo⟩
    · obtain ⟨h1, h2, h3, -⟩ := hrep.stale hg
      exact ⟨h1, h2, h3, fun hn => absurd rfl hn, fun hn => absurd rfl hn⟩

theorem consume_ok (h : Inv m w c t) {st : Step} {answer : Answer} (hact : st.action = .consume answer)
    (ha : Allowed m w st) : Ok m (w.consume st answer) := by
  unfold World.consume
  split
  · rename_i o v r g ho hp
    have hrep := h.replay _ hp
    have hobj := h.object o ho
    cases answer with
    | accept =>
      by_cases hg : g = w.gen
      · subst hg
        obtain ⟨i, hgo, hr⟩ := hrep.fresh rfl
        exact ⟨_, _, h.accept ho hp hgo hr⟩
      · exact ⟨_, _, h.accept_stale ho hp hg⟩
    | refuse =>
      exact ⟨_, _, h.refuse ho hp⟩
    | throw =>
      have hq : ¬ m.quiet := fun hq => (ha.quiet hq).2.2.2 hact
      refine call_ok (wp_locked ?_)
      intro l
      refine h.leave c.stop o ho rfl rfl rfl rfl rfl ⟨rfl, rfl⟩ (by simp [Event.gen])
        (faithful_of_plain (by simp) (by simp) _) h.disk.stop (Or.inl (h.marked hq)) (fun hq' => absurd hq' hq) rfl rfl
        (Or.inr ⟨rfl, fun hq' => absurd hq' hq⟩) fun _ hs => ?_
      rcases hs with hs | hs <;> cases hs
  · exact ⟨c, t, h⟩

/-- a replay which is over and stored nothing yet has left its place, or it stands at a position -/
theorem Inv.ending {v : ReplayVars} {g : ℕ} (h : Inv m w c t) (hp : w.replay = some ⟨v, .ending, g⟩)
    (hcl : v.cleared = false) : c.reader = none ∧ m.quiet ∧ g ≠ w.gen ∨ ∃ i, g = w.gen ∧ Going m c v i := by
  have hrep := h.replay _ hp
  by_cases hg : g = w.gen
  · rcases hrep.fresh hg with ⟨i, hgo⟩ | ⟨hcl', -⟩
    · exact Or.inr ⟨i, hg, hgo⟩
    · have hcl2 : v.cleared = true := hcl'
      rw [hcl] at hcl2
      cases hcl2
  · exact Or.inl ⟨(hrep.stale hg).reader, (hrep.stale hg).quiet, hg⟩

theorem CursorLog_exact_stop (hex : c.Exact) (hmark : c.mark = c.front) : c.stop.Exact :=
  ⟨hex.all, fun _ => hmark, fun _ hn => nomatch hn⟩

theorem replayEnd_ok (h : Inv m w c t) {st : Step} (hact : st.action = .replayEnd) (ha : Allowed m w st) :
    Ok m (w.replayEnd st) := by
  unfold World.replayEnd
  split
  · rename_i o v g ho hp
    have hrep := h.replay _ hp
    have hplain : ∀ b, Plain (.replayed b) := fun b => ⟨rfl, rfl⟩
    have hfaith : ∀ b, Faithful m w.trace (.replayed b) := fun b => faithful_of_plain (by simp) (by simp) _
    have hsame : ∀ p, w.replay = some p → p.vars = v := by
      intro p hp'
      rw [hp] at hp'
      cases hp'
      rfl
    refine call_ok (wp_replayEnd (fun hcl l => ?_) (fun hcl hwhy l => ?_) fun hcl hch hd l => ?_)
    · -- the WAL was emptied in the loop
      have hnone : c.reader = none := by
        by_cases hg : g = w.gen
        · rcases hrep.fresh hg with ⟨i, hgo⟩ | ⟨-, hr, -⟩
          · have hcl' : v.cleared = false := hgo.cleared
            rw [hcl] at hcl'
            cases hcl'
          · exact hr
        · exact (hrep.stale hg).reader
      refine h.leave c o ho rfl rfl rfl rfl hnone (hplain _) (by simp [Event.gen]) (hfaith _) h.disk
        (h.commit_same ho rfl rfl rfl rfl rfl) h.exact rfl rfl (Or.inr ⟨rfl, fun _ p hp' _ hcl' => ?_⟩) fun hg0 hs => ?_
      · rw [hsame p hp', hcl] at hcl'
        cases hcl'
      · have hok : v.clearOk = true := by
          rcases hs with hs | hs
          · exact Event.replayed.inj hs
          · cases hs
        have hg : g = w.gen := by
          have : g ≤ w.gen := hrep.gen_le
          omega
        rcases hrep.fresh hg with ⟨i, hgo⟩ | ⟨-, -, hem⟩
        · have hcl' : v.cleared = false := hgo.cleared
          rw [hcl] at hcl'
          cases hcl'
        · obtain ⟨pre, post, heq, hent, hacc, hno⟩ := hem hok
          refine Or.inr (Or.inr ⟨?_, pre, post ++ [.replayed v.clearOk], ?_, ?_, ?_, not_mem_concat hno (by simp)⟩)
          · show (w.trace ++ [Event.replayed v.clearOk]).getLast? = _
            rw [List.getLast?_concat, hok]
          · rw [heq, List.append_assoc, List.cons_append]
          · rw [appendedIn_concat_plain (hplain _)]; exact hent
          · rw [acceptedIn_concat_plain (hplain _)]; exact hacc
    · -- nothing was accepted, or another thread called `Clear`
      refine h.leave c.stop o ho rfl rfl rfl rfl rfl (hplain _) (by simp [Event.gen]) (hfaith _) h.disk.stop
        (h.commit_same ho rfl rfl rfl rfl rfl) (fun hq => CursorLog_exact_stop (h.exact hq) ?_) rfl rfl
        (Or.inr ⟨rfl, fun _ p hp' _ _ hch => ?_⟩) fun _ hs => ?_
      · rcases h.ending hp hcl with ⟨hr, -⟩ | ⟨i, -, hgo⟩
        · exact (h.exact hq).idle hr
        · have hd : v.didReplay = false := hwhy.resolve_left (by rw [hgo.changed]; simp)
          rw [hgo.start hq hd]
          exact (h.exact hq).reading i hgo.reader
      · rw [hsame p hp'] at hch ⊢
        exact hwhy.resolve_left (by rw [hch]; simp)
      · rcases hs with hs | hs <;> cases hs
    · -- the position of what was accepted is stored
      obtain ⟨i, hg, hgo⟩ : ∃ i, g = w.gen ∧ Going m c v i := by
        rcases h.ending hp hcl with ⟨-, -, hg⟩ | hgo
        · rcases ha.ending v g hact hp hg with h' | h' | h'
          · rw [hcl] at h'; cases h'
          · rw [hch] at h'; cases h'
          · rw [hd] at h'; cases h'
        · exact hgo
      obtain ⟨hb, hf⟩ := h.going_reader hgo
      obtain ⟨hlast, hlt⟩ := hgo.last hd
      rw [hgo.offset]
      refine wp_storeCommit (fun l k _ l => ?_) (fun l k _ hno l => ?_) (fun p l k _ hno hlen l => ?_) fun hcr => ?_
      · refine h.leave (c.stop.store i) o ho rfl rfl rfl rfl rfl (hplain _) (by simp [Event.gen]) (hfaith _)
          (h.disk.stop.stored_at _ hb hf) (Or.inl (marked_stored h.disk.stop i)) (fun hq => ?_) rfl rfl (Or.inl rfl)
          fun _ _ => Or.inl ⟨?_, ?_⟩
        · have hex := h.exact hq
          exact ⟨hex.all, fun _ => hex.reading i hgo.reader, fun _ hn => nomatch hn⟩
        · show c.base < c.last
          rw [hlast]; exact hlt
        · exact hlast.symm
      · have hq := ha.noisy hno
        refine h.leave c.stop o ho rfl rfl rfl rfl rfl (hplain _) (by simp [Event.gen]) (hfaith _) h.disk.stop
          (Or.inl (h.marked hq)) (fun hq' => absurd hq' hq) rfl rfl
            (Or.inr ⟨rfl, fun hq' => absurd hq' hq⟩) fun _ hs => ?_
        rcases hs with hs | hs <;> cases hs
      · have hq := ha.noisy hno
        refine h.leave (c.stop.store c.base) o ho rfl rfl rfl rfl rfl (hplain _) (by simp [Event.gen]) (hfaith _)
          (h.disk.stop.forget _) (Or.inl (marked_forget (Or.inr ⟨p, rfl, hlen⟩))) (fun hq' => absurd hq' hq) rfl rfl
          (Or.inl rfl) fun _ hs => ?_
        rcases hs with hs | hs <;> cases hs
      · have hq := ha.cut hcr
        exact ⟨h.left_same hq w.files.corrupt, fun p hlen => h.left (c.store c.base) hq (h.disk.forget (some p))
          (marked_forget (Or.inr ⟨p, rfl, hlen⟩)) (Or.inl rfl) rfl rfl⟩
  · exact ⟨c, t, h⟩

/-! ## Peek and Ack -/

theorem ObjectInv.no_replay {o : SimpleWal} (h : ObjectInv m w c o) (hr : o.replaying = false) : w.replay = none := by
  rw [h.replaying] at hr
  simpa using hr

theorem peek_ok (h : Inv m w c t) {st : Step} (hact : st.action = .peek) (ha : Allowed m w st) : Ok m (w.peek st) := by
  unfold World.peek
  cases ho : w.wal with
  | none => exact ⟨c, t, h⟩
  | some o =>
    have hobj := h.object o ho
    have hv := h.disk.valid
    have hplain : Plain .peekedNothing := ⟨rfl, rfl⟩
    have hfaith : Faithful m w.trace .peekedNothing := faithful_of_plain (by simp) (by simp) _
    refine call_ok (wp_peek (fun _ q b l k _ _ => ?_) (fun _ hr _ off r rest l k _ ht hparse _ => ?_)
      (fun _ hr _ off ht fs hfs l k hk => ?_) fun hcr q => h.left_same (ha.cut hcr) q)
    · exact h.same ho rfl hplain (by simp) (by simp [Event.gen]) hfaith (by simp) (by simp) (fun _ _ hn => nomatch hn)
        (hobj.unpeeked c rfl rfl rfl rfl rfl)
    · -- the record at the stored position
      obtain ⟨i, hb, hm, hoff, hq⟩ := h.takes ha (Or.inr hact) ho ht
      have hf := hm.trans hv.mark_front
      have hnone := hobj.no_replay hr
      have hnorep : ∀ p, w.replay = some p → False := fun p hp => by rw [hnone] at hp; cases hp
      rw [hoff] at hparse
      have hent : c.appended[i]? = some r := entry_of_parse h.disk.stored hb (hf.trans hv.front_le) hparse
      have hfront : m.quiet → i = c.front := fun hq' => (hq hq').trans ((h.exact hq').idle (h.idle hnone))
      refine ⟨c, t, h.update rfl rfl ⟨rfl, rfl⟩ ?_ (.delivered (h.next hent hfront)) h.disk
        (h.commit_same ho rfl rfl rfl rfl rfl) (Or.inl rfl) h.exact ?_
          (fun p hp => (hnorep p hp).elim) h.idle ?_ fun _ hs => ?_⟩
      · rintro g' ⟨⟩
        exact le_rfl
      · refine {
          fd := hobj.fd, file := hobj.file, lock := hobj.lock, replaying := hobj.replaying, pending := hobj.pending
          epoch := fun _ => le_rfl, peek := fun _ _ => ⟨i, r, hb, hf, hent, hoff, rfl, rfl, fun hq' => Or.inl ?_⟩ }
        exact hfront hq'
      · rintro _ _ ⟨⟩
        exact List.mem_of_getElem? hent
      · rcases hs with hs | hs <;> cases hs
    · -- nothing at the position: the WAL is emptied
      obtain ⟨i, hb, hm, hoff, hq⟩ := h.takes ha (Or.inr hact) ho ht
      have hnone := hobj.no_replay hr
      have hnorep : ∀ p, w.replay = some p → False := fun p hp => by rw [hnone] at hp; cases hp
      obtain ⟨hdisk, hcom, hwal, hlock, hall⟩ := h.disk.at_end ha hb (hm.trans hv.mark_front) hoff hfs
      have hval : fs.commitValue = w.files.commitValue := by rw [Files.commitValue, hcom]; rfl
      refine wp_clearInternal (fun hfd => ?_) (fun _ l k _ l => ?_) (fun _ l k _ hno l => ?_) (fun _ l k _ hno l => ?_)
        (fun _ l k _ hno => ?_) fun hcr => ?_
      · have hfd' : o.fd = false := hfd
        rw [hobj.fd] at hfd'
        cases hfd'
      · refine ⟨c.empty, [], h.update rfl rfl hplain (by simp [Event.gen]) hfaith (hdisk.cleared hall)
          (Or.inl marked_cleared) (Or.inr rfl) (fun hq => (h.exact hq).empty hall) ?_ (fun p hp => (hnorep p hp).elim)
          (fun _ => rfl) (fun _ _ hn => nomatch hn) fun _ hs => ?_⟩
        · exact hobj.cleared rfl rfl rfl rfl (by rw [← hwal]; rfl) hlock rfl rfl
        · rcases hs with hs | hs <;> cases hs
      · have hq := ha.noisy fun h0 => hno (hk.reliable h0)
        refine ⟨c, t, h.update rfl rfl hplain (by simp [Event.gen]) hfaith hdisk (Or.inl (hval.trans (h.marked hq)))
          (Or.inl rfl) (fun hq' => absurd hq' hq) (hobj.unpeeked c rfl rfl hwal hlock rfl)
            (fun p hp => (hnorep p hp).elim)
          h.idle (fun _ _ hn => nomatch hn) fun _ hs => ?_⟩
        rcases hs with hs | hs <;> cases hs
      · have hq := ha.noisy fun h0 => hno (hk.reliable h0)
        refine ⟨c.store c.base, t, h.update rfl rfl hplain (by simp [Event.gen]) hfaith (hdisk.forget none)
          (Or.inl (marked_forget (Or.inl rfl))) (Or.inl rfl) (fun hq' => absurd hq' hq)
          (hobj.unpeeked (c.store c.base) rfl rfl hwal hlock rfl) (fun p hp => (hnorep p hp).elim) h.idle
          (fun _ _ hn => nomatch hn) fun _ hs => ?_⟩
        rcases hs with hs | hs <;> cases hs
      · exact absurd (hk.reliable ha.rewind) hno
      · exact h.left_clear (ha.cut fun h0 => hcr (hk.alive h0)) hdisk hval hall

theorem acceptHeld_some {r : Bytes} (hr : w.held = some r) : w.acceptHeld = [.accepted w.gen r] := by
  simp [World.acceptHeld, hr]

/-- the caller of `Ack` accepted the entry `i` -/
theorem Inv.trace_accept {i : ℕ} {r : Bytes} (h : Inv m w c t) (hheld : w.held = some r)
    (hent : c.appended[i]? = some r) (hfront : m.quiet → i = c.front) :
    TraceInv m w.gen (w.trace ++ w.acceptHeld) (c.accept i r) := by
  rw [acceptHeld_some hheld]
  refine h.trace.concat (fun g' hg' => ?_) (.accepted (h.next hent hfront)) (List.append_nil _).symm ?_
  · cases hg'; exact le_rfl
  · rw [acceptedIn_accepted]; rfl

/-- a process which is killed inside `Ack`, in front of everything it does -/
theorem Inv.left_held (h : Inv m w c t) (hq : ¬ m.quiet) : Left m w w.acceptHeld w.files := by
  intro log
  cases hheld : w.held with
  | none =>
    refine killed_ok hq h.disk (h.marked hq) h.whole ?_
    have hnil : w.acceptHeld = [] := by simp [World.acceptHeld, hheld]
    rw [hnil, List.append_nil]
    exact h.trace
  | some r =>
    have hmem := h.held hq r hheld
    have hdisk : Disk w.files (c.again r) t := ⟨h.disk.stored, h.disk.valid.again r⟩
    refine killed_ok hq hdisk (h.marked hq) h.whole ?_
    rw [acceptHeld_some hheld]
    refine h.trace.concat (fun g' hg' => ?_) (.accepted ⟨h.trace.live ▸ hmem, fun hq' => absurd hq' hq⟩)
      (List.append_nil _).symm ?_
    · cases hg'; exact le_rfl
    · rw [acceptedIn_accepted]; rfl

/-- `Ack` returned true: the record is behind the stored position, or it is gone with all others -/
theorem Inv.acked {o' : SimpleWal} {fs : Files} {log : Log} {c1 : CursorLog Bytes} {t' : Bytes} (h : Inv m w c t)
    (c' : CursorLog Bytes) (hnone : w.replay = none) (htr : TraceInv m w.gen (w.trace ++ w.acceptHeld) c1)
    (happ : c'.appended = c1.appended)
    (hacc : c'.accepted = c1.accepted) (hdisk : Disk fs c' t') (hmark : Marked fs c') (hwhole : t' = t ∨ t' = [])
    (hexact : m.quiet → c'.Exact) (hidle : c'.reader = none)
    (hobj : ObjectInv m { w with files := fs, held := none } c' o') (hpeek : o'.peeked = false)
    (hset : (c'.base < c'.last ∧ c'.mark = c'.last) ∨ c'.entries = []) :
    Ok m { w with
      files := fs, wal := some o', log := log, held := none
      trace := w.trace ++ (w.acceptHeld ++ [.acked true]) } := by
  refine ⟨c', t', ?_⟩
  constructor
  · exact hdisk
  · exact Or.inl hmark
  · exact whole_or h.whole hwhole
  · exact hexact
  · show TraceInv m w.gen (w.trace ++ (w.acceptHeld ++ [.acked true])) c'
    rw [← List.append_assoc]
    exact htr.plain ⟨rfl, rfl⟩ (by simp [Event.gen]) (faithful_of_plain (by simp) (by simp) _) happ hacc
  · rintro _ ⟨⟩
    exact hobj.same rfl rfl rfl rfl (fun hp => by rw [hpeek] at hp; cases hp) rfl rfl rfl rfl fun _ => rfl
  · exact fun hn => nomatch hn
  · intro p hp
    have hp' : w.replay = some p := hp
    rw [hnone] at hp'
    cases hp'
  · exact fun _ => hidle
  · exact fun _ _ hn => nomatch hn
  · exact fun _ _ => hset.imp_right Or.inl

theorem ack_ok (h : Inv m w c t) {st : Step} (ha : Allowed m w st) : Ok m (w.ack st) := by
  unfold World.ack
  cases ho : w.wal with
  | none => exact ⟨c, t, h⟩
  | some o =>
    have hobj := h.object o ho
    have hv := h.disk.valid
    have hplain : Plain (.acked false) := ⟨rfl, rfl⟩
    have hfaith : Faithful m w.trace (.acked false) := faithful_of_plain (by simp) (by simp) _
    -- what `Peek` remembered
    have hpeeked : o.peeked = true → o.replaying = false → o.peekEpoch = o.positionEpoch → ∃ i r,
        Peeked m w c o i r ∧ w.replay = none ∧ (m.quiet → i = c.front) ∧
        o.peekOffset + lenSize + o.peekLen = offset lenSize c (i + 1) := by
      intro hp hr he
      have hnone := hobj.no_replay hr
      obtain ⟨i, r, hpe⟩ := hobj.peek hp he
      refine ⟨i, r, hpe, hnone, fun hq => ?_, ?_⟩
      · rcases hpe.next hq with hi | ⟨p, hp', -⟩
        · exact hi
        · rw [hnone] at hp'
          cases hp'
      · rw [offset_succ hpe.base_le hpe.entry, hpe.offset, hpe.len, Nat.add_assoc]
    refine call_ok (wp_ack (fun _ l k _ => ?_) (fun hp _ hr he hend l k hk => ?_)
      (fun hp _ hr he hlt l k hk => ?_) fun hcr => h.left_held (ha.cut hcr))
    · exact h.same ho rfl hplain (by simp) (by simp [Event.gen]) hfaith (by simp) (by simp) (fun _ _ hn => nomatch hn)
        (hobj.unpeeked c rfl rfl rfl rfl rfl)
    · -- the last record: the WAL is emptied
      obtain ⟨i, r, hpe, hnone, hfront, hnext⟩ := hpeeked hp hr he
      have hnorep : ∀ p, w.replay = some p → False := fun p hp => by rw [hnone] at hp; cases hp
      have hva := hv.accept hpe.le_front hpe.entry
      have hlt : i < c.appended.length := (List.getElem?_eq_some_iff.1 hpe.entry).1
      have hlast : i + 1 = c.appended.length := by
        refine end_of_length h.disk.stored (Nat.le_succ_of_le hpe.base_le) hlt ?_
        rw [← hnext]
        exact hend
      have hall : (c.accept i r).front = (c.accept i r).appended.length := by
        have := hv.front_le
        show max c.front (i + 1) = c.appended.length
        omega
      have hdisk : Disk w.files (c.accept i r) t := ⟨h.disk.stored, hva⟩
      have htr := h.trace_accept hpe.held hpe.entry hfront
      refine wp_clearInternal (fun hfd => ?_) (fun _ l k _ l => ?_) (fun _ l k _ hno l => ?_) (fun _ l k _ hno l => ?_)
        (fun _ l k _ hno => ?_) fun hcr => ?_
      · have hfd' : o.fd = false := hfd
        rw [hobj.fd] at hfd'
        cases hfd'
      · refine h.acked (c.accept i r).empty hnone htr rfl rfl (hdisk.cleared hall) marked_cleared (Or.inr rfl)
          (fun hq => ?_) rfl
          (hobj.cleared rfl rfl rfl rfl rfl rfl rfl rfl) rfl (Or.inr (CursorLog.empty_entries _))
        obtain rfl := hfront hq
        exact ⟨(h.exact hq).accept hpe.entry, fun _ => hall.symm, fun _ hn => nomatch hn⟩
      · have hq := ha.noisy fun h0 => hno (hk.reliable h0)
        refine ⟨c, t, h.update rfl rfl hplain (by simp [Event.gen]) hfaith h.disk (Or.inl (h.marked hq)) (Or.inl rfl)
          (fun hq' => absurd hq' hq) (hobj.unpeeked c rfl rfl rfl rfl rfl) (fun p hp => (hnorep p hp).elim) h.idle
          (fun _ _ hn => nomatch hn) fun _ hs => ?_⟩
        rcases hs with hs | hs <;> cases hs
      · have hq := ha.noisy fun h0 => hno (hk.reliable h0)
        refine ⟨c.store c.base, t, h.update rfl rfl hplain (by simp [Event.gen]) hfaith (h.disk.forget none)
          (Or.inl (marked_forget (Or.inl rfl))) (Or.inl rfl) (fun hq' => absurd hq' hq)
          (hobj.unpeeked (c.store c.base) rfl rfl rfl rfl rfl) (fun p hp => (hnorep p hp).elim) h.idle
          (fun _ _ hn => nomatch hn) fun _ hs => ?_⟩
        rcases hs with hs | hs <;> cases hs
      · exact absurd (hk.reliable ha.rewind) hno
      · have hq := ha.cut fun h0 => hcr (hk.alive h0)
        refine ⟨fun log => ?_, fun log => ?_, fun log => ?_⟩
        · exact killed_ok hq hdisk (h.marked hq) h.whole htr
        · exact killed_ok hq (hdisk.forget none) (marked_forget (Or.inl rfl)) h.whole (htr.of_eq rfl rfl)
        · exact killed_ok hq (hdisk.cleared hall) marked_cleared (Or.inl rfl) (htr.of_eq rfl rfl)
    · -- the position behind the record is stored
      obtain ⟨i, r, hpe, hnone, hfront, hnext⟩ := hpeeked hp hr he
      have hnorep : ∀ p, w.replay = some p → False := fun p hp => by rw [hnone] at hp; cases hp
      have hva := hv.accept hpe.le_front hpe.entry
      have hdisk : Disk w.files (c.accept i r) t := ⟨h.disk.stored, hva⟩
      have htr := h.trace_accept hpe.held hpe.entry hfront
      have hb : c.base ≤ i + 1 := Nat.le_succ_of_le hpe.base_le
      have hf : i + 1 ≤ (c.accept i r).front := le_max_right _ _
      show wp (storeCommit (o.peekOffset + lenSize + o.peekLen)) _ _ _
      rw [hnext]
      refine wp_storeCommit (fun l k _ l => ?_) (fun l k _ hno l => ?_) (fun p l k _ hno hlen l => ?_) fun hcr => ?_
      · refine h.acked ((c.accept i r).store (i + 1)) hnone htr rfl rfl (hdisk.stored_at _ hb hf)
          (marked_stored hdisk (i + 1)) (Or.inl rfl)
          (fun hq => ?_) (h.idle hnone) (hobj.moved rfl rfl rfl rfl) rfl (Or.inl ⟨Nat.lt_succ_of_le hpe.base_le, rfl⟩)
        obtain rfl := hfront hq
        refine ⟨(h.exact hq).accept hpe.entry, fun _ => ?_, fun j hj => ?_⟩
        · show c.front + 1 = max c.front (c.front + 1)
          omega
        · have hj' : c.reader = some j := hj
          rw [h.idle hnone] at hj'
          cases hj'
      · have hq := ha.noisy fun h0 => hno (hk.reliable h0)
        refine ⟨c, t, h.update rfl rfl hplain (by simp [Event.gen]) hfaith h.disk (Or.inl (h.marked hq)) (Or.inl rfl)
          (fun hq' => absurd hq' hq) (hobj.unpeeked c rfl rfl rfl rfl rfl) (fun p hp => (hnorep p hp).elim) h.idle
          (fun _ _ hn => nomatch hn) fun _ hs => ?_⟩
        rcases hs with hs | hs <;> cases hs
      · have hq := ha.noisy fun h0 => hno (hk.reliable h0)
        refine ⟨c.store c.base, t, h.update rfl rfl hplain (by simp [Event.gen]) hfaith (h.disk.forget _)
          (Or.inl (marked_forget (Or.inr ⟨p, rfl, hlen⟩))) (Or.inl rfl) (fun hq' => absurd hq' hq)
          (hobj.moved rfl rfl rfl rfl) (fun p hp => (hnorep p hp).elim) h.idle
          (fun _ _ hn => nomatch hn) fun _ hs => ?_⟩
        rcases hs with hs | hs <;> cases hs
      · have hq := ha.cut fun h0 => hcr (hk.alive h0)
        refine ⟨fun log => ?_, fun p hlen log => ?_⟩
        · exact killed_ok hq hdisk (h.marked hq) h.whole htr
        · exact killed_ok hq (hdisk.forget (some p)) (marked_forget (Or.inr ⟨p, rfl, hlen⟩)) h.whole (htr.of_eq rfl rfl)

/-! ## Clear -/

/-- a replay which runs while the WAL is cleared -/
theorem ReplayInv.cleared {p : Replaying} {w' : World} (h : ReplayInv m w c p) (hq : m.quiet) (hd : Disk w.files c t)
    (hgen : w'.gen = w.gen + 1) (htr : w'.trace = w.trace ++ [.cleared true]) : ReplayInv m w' {} p where
  gen_le := by
    have := h.gen_le
    omega
  fresh := fun hg => by
    have := h.gen_le
    omega
  stale := fun _ => by
    -- what a replay which stands at a position brings with it
    have hgoing : ∀ i, Going m c p.vars i → (p.vars.cleared = false ∧ p.vars.changed = false) ∧
        (p.vars.didReplay = true → 0 < p.vars.newOffset) := by
      intro i hgo
      refine ⟨⟨hgo.cleared, hgo.changed⟩, fun hdid => ?_⟩
      rw [hgo.offset]
      exact offset_pos hd.stored (hgo.last hdid).2 ((hd.valid.reader_le i hgo.reader).2.trans hd.valid.front_le)
    have hkept : p.place ≠ .ending → (p.vars.cleared = false ∧ p.vars.changed = false) ∧
        (p.vars.didReplay = true → 0 < p.vars.newOffset) := by
      intro hpl
      by_cases hg : p.gen = w.gen
      · have hf := h.fresh hg
        unfold Fresh at hf
        cases hp : p.place with
        | reading => rw [hp] at hf; obtain ⟨i, hgo⟩ := hf; exact hgoing i hgo
        | consuming r => rw [hp] at hf; obtain ⟨i, hgo, -⟩ := hf; exact hgoing i hgo
        | ending => exact absurd hp hpl
      · exact ⟨(h.stale hg).going hpl, (h.stale hg).moved hpl⟩
    exact ⟨hq, rfl, rfl, fun hpl => (hkept hpl).1, fun hpl => (hkept hpl).2⟩
  next := fun r hr => htr ▸ (h.next r hr).concat rfl

theorem clear_ok (h : Inv m w c t) {st : Step} (hact : st.action = .clear) (ha : Allowed m w st) :
    Ok m (w.clear st) := by
  unfold World.clear
  cases ho : w.wal with
  | none => exact ⟨c, t, h⟩
  | some o =>
    have hobj := h.object o ho
    have hq := ha.clear hact
    refine call_ok (wp_locked (wp_clearInternal (fun hfd => ?_) (fun _ l k _ l => ?_) (fun _ l k _ hno => ?_)
      (fun _ l k _ hno => ?_) (fun _ l k _ hno => ?_) fun hcr => ?_))
    · have hfd' : o.fd = false := hfd
      rw [hobj.fd] at hfd'
      cases hfd'
    · refine ⟨{}, [], ?_⟩
      have hplain : Plain (.cleared true) := ⟨rfl, rfl⟩
      constructor
      · refine ⟨?_, CursorLog.valid_new⟩
        show Parses lenSize w.files.cleared.walBytes [] []
        rw [walBytes_cleared]
        exact parses_nil (by decide)
      · exact Or.inl (by rfl)
      · exact Or.inl rfl
      · exact fun _ => CursorLog.exact_new
      · have hup := h.trace.upTo
        refine ⟨?_, ?_, (hup.mono (Nat.le_succ _)).concat (by simp [Event.gen]), ?_⟩
        · show [] = appendedIn (w.gen + 1) (w.trace ++ [.cleared true])
          rw [appendedIn_concat_plain hplain, hup.appendedIn_succ]
        · show [] = acceptedIn (w.gen + 1) (w.trace ++ [.cleared true])
          rw [acceptedIn_concat_plain hplain, hup.acceptedIn_succ]
        · exact h.trace.faithful.concat (faithful_of_plain (by simp) (by simp) _)
      · rintro _ ⟨⟩
        exact hobj.cleared rfl rfl rfl rfl rfl rfl rfl rfl
      · exact fun hn => nomatch hn
      · exact fun p hp => (h.replay p hp).cleared hq h.disk rfl rfl
      · exact fun _ => rfl
      · exact fun hq' => absurd hq hq'
      · exact fun hg => absurd hg (Nat.succ_ne_zero _)
    · exact absurd hq (ha.noisy hno)
    · exact absurd hq (ha.noisy hno)
    · exact absurd hq (ha.noisy hno)
    · exact absurd hq (ha.cut hcr)

/-! ## Opening, closing and being killed -/

theorem start_ok (h : Inv m w c t) {st : Step} (ha : Allowed m w st) (maxSize : ℕ) : Ok m (w.start maxSize st) := by
  unfold World.start
  cases ho : w.wal with
  | some o => exact ⟨c, t, h⟩
  | none =>
    obtain ⟨hfree, hnone⟩ := h.absent ho
    have hnorep : ∀ p, w.replay = some p → False := fun p hp => by rw [hnone] at hp; cases hp
    refine call_ok (wp_init rfl rfl (fun gotLock pending l k _ _ _ hpend _ => ?_) (fun hl => ?_) (fun l k _ hno => ?_)
      fun hcr => ⟨?_, fun b => ?_⟩)
    · have hopened : Disk (w.files.opened gotLock) c t := ⟨by rw [walBytes_opened]; exact h.disk.stored, h.disk.valid⟩
      refine ⟨c, t, h.update rfl rfl ⟨rfl, rfl⟩ (by simp [Event.gen]) (faithful_of_plain (by simp) (by simp) _) hopened
        (h.commit.imp id fun hm => ⟨hm.quiet, hm.found, hm.start, hm.whole, ?_⟩) (Or.inl rfl) h.exact ?_
        (fun p hp => (hnorep p hp).elim) h.idle h.held fun _ hs => ?_⟩
      · rintro _ ⟨⟩
        rfl
      · refine {
          fd := rfl, file := ⟨_, rfl⟩, lock := ?_, replaying := ?_, pending := fun hp => ?_
          epoch := (fun hp => nomatch hp), peek := (fun hp => nomatch hp) }
        · show (w.files.locked || gotLock) = gotLock
          rw [hfree, Bool.false_or]
        · show false = w.replay.isSome
          rw [hnone]; rfl
        · have hnil := (hpend hp).resolve_right fun h0 => h0 ha.fstat
          exact empty_of_nil h.disk.stored h.disk.valid hnil
      · rcases hs with hs | hs <;> cases hs
    · have hl' : w.files.locked = true := hl
      rw [hfree] at hl'
      cases hl'
    · exact absurd ha.openWal hno
    · exact h.left_same (ha.cut hcr) w.files.corrupt
    · refine h.left c (ha.cut hcr) ?_ (h.marked (ha.cut hcr)) (Or.inl rfl) rfl rfl
      exact ⟨by rw [walBytes_opened]; exact h.disk.stored, h.disk.valid⟩

/-- the files of an empty WAL can be removed -/
theorem Inv.destroyed {o : SimpleWal} {wal : Option File} {commit : Option Bytes} (h : Inv m w c t)
    (hwal : wal = w.files.wal ∨ w.files.walBytes = [] ∧ wal = none)
    (hcom : commit = w.files.commit ∨ w.files.walBytes = [] ∧ commit = none) :
    Disk (w.files.destroyed o wal commit) c t ∧
      (Marked (w.files.destroyed o wal commit) c ∨ Misplaced m (w.files.destroyed o wal commit) none c t) := by
  refine ⟨⟨?_, h.disk.valid⟩, ?_⟩
  · have hbytes : (w.files.destroyed o wal commit).walBytes = w.files.walBytes := by
      rcases hwal with rfl | ⟨hnil, rfl⟩
      · rfl
      · rw [hnil]; rfl
    rw [hbytes]
    exact h.disk.stored
  · rcases hcom with rfl | ⟨hnil, rfl⟩
    · exact h.commit.imp id fun hm => ⟨hm.quiet, hm.found, hm.start, hm.whole, fun _ hn => nomatch hn⟩
    · left
      show 0 = offset lenSize c c.mark
      have hle := offset_le h.disk.stored c.mark
      rw [hnil] at hle
      exact (Nat.le_zero.1 hle).symm

theorem close_ok (h : Inv m w c t) {st : Step} (ha : Allowed m w st) : Ok m (w.close st) := by
  unfold World.close
  split
  · rename_i o ho hnone
    have hobj := h.object o ho
    -- the state without an object
    have hclosed : ∀ fs log, fs.locked = false → Disk fs c t → Marked fs c ∨ Misplaced m fs none c t →
        Ok m { w with
          files := fs, wal := none, log := log, held := none, trace := w.trace ++ [.closed] } := by
      intro fs log hl hd hm
      refine ⟨c, t, ?_⟩
      constructor
      · exact hd
      · exact hm
      · exact h.whole
      · exact h.exact
      · exact h.trace.plain ⟨rfl, rfl⟩ (by simp [Event.gen]) (faithful_of_plain (by simp) (by simp) _) rfl rfl
      · exact fun o ho => nomatch ho
      · exact fun _ => ⟨hl, hnone⟩
      · intro p hp
        have hp' : w.replay = some p := hp
        rw [hnone] at hp'
        cases hp'
      · exact h.idle
      · exact fun _ _ hn => nomatch hn
      · exact fun _ hs => absurd hs (not_settles_concat (by simp) (by simp))
    have hunlocked : ∀ wal commit, (w.files.destroyed o wal commit).locked = false := by
      intro wal commit
      show (w.files.locked && !o.hasLock) = false
      rw [hobj.lock, Bool.and_not_self]
    have hempty : w.files.walBytes = [] ∨ st.oracle .fstat ≠ [] → w.files.walBytes = [] :=
      fun hwhy => hwhy.resolve_right fun h0 => h0 ha.fstat
    refine call_ok (wp_destroy hobj.fd (fun _ k _ => ?_) (fun hwhy wal commit k _ hw hc => ?_) fun hcr => ⟨?_, ?_⟩)
    · obtain ⟨hd, hm⟩ := h.destroyed (o := o) (Or.inl rfl) (Or.inl rfl)
      exact hclosed _ _ (hunlocked _ _) hd hm
    · have hnil := hempty hwhy
      obtain ⟨hd, hm⟩ := h.destroyed (o := o) (hw.symm.imp_right fun hw => ⟨hnil, hw⟩)
        (hc.symm.imp_right fun hc => ⟨hnil, hc⟩)
      exact hclosed _ _ (hunlocked _ _) hd hm
    · exact h.left_same (ha.cut hcr) w.files.corrupt
    · intro hwhy wal hw
      obtain ⟨hd, hm⟩ := h.destroyed (o := o) (hw.symm.imp_right fun hw => ⟨hempty hwhy, hw⟩) (Or.inl rfl)
      exact h.left c (ha.cut hcr) hd (hm.resolve_right fun hm => ha.cut hcr hm.quiet) (Or.inl rfl) rfl rfl
  · exact ⟨c, t, h⟩

/-! ## Steps and runs -/

/-- **Every allowed step keeps the invariant.** -/
theorem step_ok {st : Step} (h : Ok m w) (ha : Allowed m w st) : Ok m (w.step st) := by
  obtain ⟨c, t, h⟩ := h
  unfold World.step
  cases hact : st.action with
  | start maxSize => exact start_ok h ha maxSize
  | close => exact close_ok h ha
  | kill =>
    have hq : ¬ m.quiet := fun hq => (ha.quiet hq).2.2.1 hact
    dsimp only
    cases ho : w.wal with
    | none => exact ⟨c, t, h⟩
    | some o => exact h.left_same hq w.files.corrupt w.log
  | setMaxSize bytes => exact setting_ok h fun o => rfl
  | setLogLevel level => exact setting_ok h fun o => rfl
  | append data => exact append_ok h hact ha
  | replayStart => exact replayStart_ok h hact ha
  | replayRead => exact replayRead_ok h hact ha
  | consume answer => exact consume_ok h hact ha
  | replayEnd => exact replayEnd_ok h hact ha
  | peek => exact peek_ok h hact ha
  | ack => exact ack_ok h ha
  | clear => exact clear_ok h hact ha

/-- **Every run of allowed steps keeps the invariant.** -/
theorem run_ok {sts : List Step} (h : Ok m w) (ha : Guarded World.step (Allowed m) w sts) : Ok m (w.run sts) :=
  ha.inv (fun _ _ hG hI => step_ok hI hG) h

end DominoLogForwarder.Wal
