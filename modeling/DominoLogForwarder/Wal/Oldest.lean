/-
The oldest record of a WAL which one thread uses on a machine where no system call fails: `Peek` returns it, and the
`Ack` behind it accepts it. So the WAL never gets stuck by itself, and a program with a record which waits in its WAL
has only its own reasons not to take it.

`Busy`: `IsReplayPending` of such a WAL is true only if a record waits.
-/
import DominoLogForwarder.Wal.Sequential

namespace DominoLogForwarder.Wal

open CrashProg Framing FramedLog

/-! ## Peek and Ack -/

section Oldest

variable {w : World} {o : SimpleWal} {r : Bytes} {rest : List Bytes}

/-- what `Peek` leaves behind when it returned the record `r` -/
structure Found (w : World) (o : SimpleWal) (r : Bytes) (s : Sys) : Prop where
  files : s.files = w.files
  fd : s.wal.fd = true
  replaying : s.wal.replaying = false
  peeked : s.wal.peeked = true
  epoch : s.wal.peekEpoch = s.wal.positionEpoch
  fits : s.wal.peekOffset + lenSize + s.wal.peekLen ≤ w.files.walBytes.length

/-- **`Peek` returns the oldest record.** -/
theorem Pending.found (h : Pending w (r :: rest)) (ho : w.wal = some o) :
    wp Wal.peek (fun got s => got = some r ∧ Found w o r s) (fun _ => False) (w.sys o (Action.quiet .peek)) := by
  have hstored := h.stored
  have hpending : o.pendingReplay = true := by
    by_contra hno
    apply List.cons_ne_nil r rest
    apply h.empty
    unfold World.isReplayPending
    rw [ho]
    exact fun hp => hno (Option.some.inj hp)
  obtain ⟨⟨c, t, hinv⟩, -⟩ := h.calm
  have hobj := hinv.object o ho
  have hidle : o.replaying = false := by
    rw [hobj.replaying, h.idle]
    rfl
  have hm := hinv.marked_of_found rfl
  have hquiet : (Action.quiet .peek).Quiet := ⟨fun _ => rfl, rfl, by simp [Action.quiet], by simp [Action.quiet]⟩
  have hallowed : Allowed (quietMode none) w (Action.quiet .peek) :=
    hquiet.allowed (fun _ _ _ hf => by cases hf) (by simp [Action.quiet]) (by simp [Action.quiet])
  -- it starts at the position of the commit file, and there is the oldest record
  have hat : ∀ off, Takes (w.sys o (Action.quiet .peek)) off → off = w.files.commitValue := by
    intro off ht
    obtain ⟨i, -, -, hoff, hmark⟩ := hinv.takes hallowed (.inr rfl) ho ht
    rw [hoff, hmark trivial, hm]
  obtain ⟨tail, hparse⟩ : ∃ tail, parseFrame lenSize (w.files.walBytes.drop w.files.commitValue) = some (r, tail) := by
    have hfirst := hstored.parseFrame_drop 0
    rw [List.take_zero, span_nil, List.drop_zero, dif_pos (by simp)] at hfirst
    exact ⟨_, hfirst⟩
  refine wp_peek (D := fun _ => False) (fun hno => ?_) (fun _ _ _ off got more l k _ ht hgot hfits => ?_)
    (fun _ _ _ off ht fs hend l k _ => ?_) not_cut
  · rcases hno with hf | hf | hf | ⟨c, -, hf⟩
    · exact absurd (hobj.fd.symm.trans hf) (by decide)
    · exact absurd (hidle.symm.trans hf) (by decide)
    · exact absurd (hpending.symm.trans hf) (by decide)
    · exact not_failed hf
  · rw [hat off ht] at hgot hfits
    obtain ⟨rfl, -⟩ : got = r ∧ more = tail := by
      have heq := hgot.symm.trans hparse
      exact Prod.mk.inj (Option.some.inj heq)
    refine ⟨rfl, rfl, hobj.fd, hidle, rfl, rfl, ?_⟩
    rw [hat off ht, Nat.add_assoc]
    exact hfits
  · exfalso
    rw [hat off ht] at hend
    rcases hend with ⟨hend, -⟩ | ⟨-, -, hbad | ⟨n, hf⟩⟩
    · have hnil : w.files.walBytes.drop w.files.commitValue = [] := List.drop_eq_nil_of_le hend.ge
      rw [hnil] at hparse
      cases hparse
    · have hbad' : parseFrame lenSize (w.files.walBytes.drop w.files.commitValue) = none := hbad
      rw [hparse] at hbad'
      cases hbad'
    · cases hf

/-- **The oldest record can be taken**: the `Ack` behind the `Peek` accepts it. -/
theorem Pending.taken (h : Pending w (r :: rest)) :
    w.tryPeek.2 = some r ∧ w.tryPeek.1.tryAck.2 = true ∧ Pending w.tryPeek.1.tryAck.1 rest := by
  obtain ⟨o, ho⟩ := h.opened
  obtain ⟨got, s, hrun, rfl, hfound⟩ := exists_of_wp (h.found ho)
  have hpeeked : w.tryPeek.2 = some r := by
    unfold World.tryPeek World.result
    rw [ho]
    dsimp only
    rw [hrun]
    rfl
  have hafter : w.tryPeek.1 = { (w.after s).note [.delivered w.gen r] with held := some r } := by
    show w.peek _ = _
    unfold World.peek World.call
    rw [ho]
    dsimp only
    rw [hrun]
  have hack : wp Wal.ack (fun ok _ => ok = true) (fun _ => False) (w.tryPeek.1.sys s.wal (Action.quiet .ack)) := by
    have hfiles : (w.tryPeek.1.sys s.wal (Action.quiet .ack)).files = w.files := by
      rw [hafter]
      exact hfound.files
    refine wp_ack (D := fun _ => False) (fun hno => ?_) (fun _ _ _ _ _ l k hk => ?_)
      (fun _ _ _ _ _ l k hk => ?_) not_cut
    · rcases hno with hf | hf | hf | hf | hf | hf
      · exact absurd (hfound.peeked.symm.trans hf) (by decide)
      · exact absurd (hfound.fd.symm.trans hf) (by decide)
      · exact absurd (hfound.replaying.symm.trans hf) (by decide)
      · exact absurd hfound.epoch hf
      · exact not_failed hf
      · rw [hfiles] at hf
        exact absurd hfound.fits (Nat.not_le_of_lt hf)
    · exact wp_clearInternal (D := fun _ => False) (fun _ _ => rfl) (fun _ _ _ _ _ => rfl)
        (fun _ _ _ hk' hf => absurd (hk.reliable rfl) hf) (fun _ _ _ _ hf => absurd (hk.reliable rfl) hf)
        (fun _ _ _ _ hf => absurd (hk.reliable rfl) hf) fun hf => absurd (hk.alive rfl) hf
    · exact wp_storeCommit (D := fun _ => False) (fun _ _ _ _ => rfl) (fun _ _ _ hf => absurd (hk.reliable rfl) hf)
        (fun _ _ _ _ hf => absurd (hk.reliable rfl) hf) fun hf => absurd (hk.alive rfl) hf
  have hacked : w.tryPeek.1.tryAck.2 = true := by
    obtain ⟨ok, s', hrun', rfl⟩ := exists_of_wp hack
    have hwal : w.tryPeek.1.wal = some s.wal := by
      rw [hafter]
      rfl
    unfold World.tryAck World.result
    rw [hwal]
    dsimp only
    rw [hrun']
    rfl
  obtain ⟨hpend, hheld⟩ := h.peek
  obtain ⟨htrue, -⟩ := hpend.ack (hheld.trans hpeeked)
  obtain ⟨ls, heq, hrest⟩ := htrue hacked
  cases heq
  exact ⟨hpeeked, hacked, hrest⟩

end Oldest

/-! ## IsReplayPending -/

/-- bytes in the WAL file have a record which is not accepted, and the object knows only of such a record -/
structure Awaits (fs : Files) (o : SimpleWal) : Prop where
  left : fs.walBytes ≠ [] → fs.commitValue < fs.walBytes.length
  pending : o.pendingReplay = true → fs.walBytes ≠ []

structure Busy (w : World) : Prop where
  left : w.files.walBytes ≠ [] → w.files.commitValue < w.files.walBytes.length
  object : ∀ o, w.wal = some o → Awaits w.files o

section Busy

variable {w : World} {ls : List Bytes}

theorem Awaits.empty {fs : Files} {o : SimpleWal} (hnil : fs.walBytes = [])
    (hno : o.pendingReplay = false) : Awaits fs o :=
  ⟨fun hne => absurd hnil hne, fun hp => absurd (hp.symm.trans hno) (by decide)⟩

/-- the files and the object which a call leaves behind -/
theorem busy_call {α : Type} {a : Action} {o : SimpleWal} {f : WalM α} {cut : List Event} {next : World → α → World}
    (hwp : wp f (fun _ s => Awaits s.files s.wal) (fun _ => False) (w.sys o (Action.quiet a)))
    (hnext : ∀ w' r, (next w' r).files = w'.files ∧ (next w' r).wal = w'.wal) :
    Busy (w.call (Action.quiet a) o f cut next) := by
  obtain ⟨r, s, hs, hcall⟩ : ∃ r s, Awaits s.files s.wal ∧
      w.call (Action.quiet a) o f cut next = next (w.after s) r := call_quiet hwp
  obtain ⟨hfiles, hwal⟩ := hnext (w.after s) r
  rw [hcall]
  refine ⟨?_, fun o' ho' => ?_⟩
  · rw [hfiles]
    exact hs.left
  · rw [hwal] at ho'
    cases ho'
    rw [hfiles]
    exact hs

/-- the position of the commit file is not behind the end of the WAL -/
theorem Pending.commit_le (h : Pending w ls) : w.files.commitValue ≤ w.files.walBytes.length := by
  obtain ⟨⟨c, t, hinv⟩, -⟩ := h.calm
  have hm := hinv.marked_of_found rfl
  rw [hm]
  exact offset_le hinv.disk.stored _

theorem Busy.start (h : Busy w) (hnone : w.wal = none) (hfree : w.files.locked = false) (maxSize : ℕ) :
    Busy (w.step (Action.quiet (.start maxSize))) := by
  show Busy (w.start maxSize _)
  unfold World.start
  rw [hnone]
  refine busy_call (wp_init (D := fun _ => False) rfl rfl (fun gotLock pending l k _ _ _ _ hpending => ?_)
    (fun hl => ?_)
    (fun _ _ _ hf => not_failed hf) fun hcr => not_cut hcr) fun _ _ => ⟨rfl, rfl⟩
  · refine ⟨fun hne => ?_, fun hp => ?_⟩
    · rw [walBytes_opened] at hne ⊢
      exact h.left hne
    · rw [walBytes_opened]
      exact hpending hp
  · exact absurd (hl.symm.trans hfree) (by decide)

theorem Busy.append (h : Busy w) (hpend : Pending w ls) (data : Payload) : Busy (w.tryAppend data).1 := by
  obtain ⟨o, ho⟩ := hpend.opened
  obtain ⟨⟨c, t, hinv⟩, -⟩ := hpend.calm
  have hawait := h.object o ho
  show Busy (w.append _ data)
  unfold World.append
  rw [ho]
  refine busy_call (wp_append (D := fun _ => False) (fun _ => (hinv.object o ho).file) (fun _ => hawait)
    (fun _ hne f' l k _ hbytes _ => ?_) (fun _ b l k _ => ⟨hawait.left, hawait.pending⟩)
    (fun _ _ _ _ _ _ _ hf => not_failed hf) not_cut) fun _ _ => ⟨rfl, rfl⟩
  -- the position of the commit file is at most at the end, and a record is behind it now
  have hlonger : w.files.walBytes.length < f'.bytes.length := by
    rw [hbytes, List.length_append, length_frame]
    exact Nat.lt_add_of_pos_right (Nat.add_pos_left (by decide) _)
  refine ⟨fun _ => hpend.commit_le.trans_lt hlonger, fun _ => ?_⟩
  exact List.ne_nil_of_length_pos (Nat.zero_lt_of_lt hlonger)

/-- emptying a WAL leaves nothing which waits -/
theorem awaits_clear {Q : Bool → Sys → Prop} {s : Sys} (hcalls : ∀ c, s.kern.oracle c = [])
    (hcrash : s.kern.crashIn = none)
    (hfd : s.wal.fd = true) (hQ : ∀ fs o l k, Awaits fs o → Q true ⟨fs, o, l, k⟩) :
    wp clearInternal Q (fun _ => False) s :=
  wp_clearInternal (D := fun _ => False) (fun hf => absurd (hfd.symm.trans hf) (by decide))
    (fun _ _ _ _ => hQ _ _ _ _ (.empty (walBytes_cleared _) rfl)) (fun _ _ _ _ hf => absurd (hcalls _) hf)
    (fun _ _ _ _ hf => absurd (hcalls _) hf) (fun _ _ _ _ hf => absurd (hcalls _) hf) fun hf => absurd hcrash hf

theorem Busy.peek (h : Busy w) (hpend : Pending w ls) : Busy w.tryPeek.1 := by
  obtain ⟨o, ho⟩ := hpend.opened
  have hawait := h.object o ho
  show Busy (w.peek _)
  unfold World.peek
  rw [ho]
  refine busy_call (wp_peek (D := fun _ => False) (fun _ q b l k _ _ => ⟨hawait.left, hawait.pending⟩)
    (fun _ _ _ _ _ _ _ _ _ _ _ _ => ⟨hawait.left, hawait.pending⟩) (fun hfd _ _ _ _ fs _ l k hk => ?_) not_cut)
    fun w' r => by cases r <;> exact ⟨rfl, rfl⟩
  exact awaits_clear (fun c => hk.reliable rfl) (hk.alive rfl) hfd fun _ _ _ _ hclear _ => hclear

theorem Busy.ack (h : Busy w) (hpend : Pending w ls) : Busy w.tryAck.1 := by
  obtain ⟨o, ho⟩ := hpend.opened
  have hawait := h.object o ho
  show Busy (w.ack _)
  unfold World.ack
  rw [ho]
  refine busy_call (wp_ack (D := fun _ => False) (fun _ l k _ => ⟨hawait.left, hawait.pending⟩)
    (fun _ hfd _ _ _ l k hk => ?_) (fun _ _ _ _ hlt l k hk => ?_) not_cut) fun _ _ => ⟨rfl, rfl⟩
  · exact awaits_clear (fun c => hk.reliable rfl) (hk.alive rfl) hfd fun _ _ _ _ hclear _ => hclear
  · refine wp_storeCommit (D := fun _ => False) (fun l k _ _ => ⟨fun _ => ?_, hawait.pending⟩)
      (fun _ _ _ hf => absurd (hk.reliable rfl) hf) (fun _ _ _ _ hf => absurd (hk.reliable rfl) hf)
      fun hf => absurd (hk.alive rfl) hf
    -- the stored position is the one behind the record, and that is not the end
    have hlt' : o.peekOffset + lenSize + o.peekLen < w.files.walBytes.length := hlt
    have hmax := w.files.walBytes_le
    show Files.commitValue ⟨w.files.wal, some (leBytes 8 (o.peekOffset + lenSize + o.peekLen)), w.files.corrupt,
      w.files.locked⟩ < w.files.walBytes.length
    rw [commitValue_stored (hlt'.le.trans hmax)]
    exact hlt'

/-- the destructor removes the files only if nothing is in them -/
theorem Busy.close (h : Busy w) (hpend : Pending w ls) : Busy (w.step (Action.quiet .close)) := by
  obtain ⟨o, ho⟩ := hpend.opened
  obtain ⟨⟨c, t, hinv⟩, -⟩ := hpend.calm
  have hawait := h.object o ho
  show Busy (w.close _)
  unfold World.close
  rw [ho, hpend.idle]
  have hspec : wp destroy (fun _ s => s.files.walBytes ≠ [] → s.files.commitValue < s.files.walBytes.length)
      (fun _ => False) (w.sys o (Action.quiet .close)) := by
    refine wp_destroy (D := fun _ => False) (hinv.object o ho).fd (fun _ k _ => hawait.left)
      (fun hnil wal c k _ hwal _ hne => ?_) not_cut
    rcases hnil with hnil | hf
    · refine absurd ?_ hne
      rcases hwal with rfl | rfl
      · rfl
      · exact hnil
    · exact not_failed hf
  obtain ⟨_, s, hleft, hcall⟩ : ∃ (_ : Unit) (s : Sys),
      (s.files.walBytes ≠ [] → s.files.commitValue < s.files.walBytes.length) ∧
        (w.call (Action.quiet .close) o destroy [] fun w' _ => { w'.note [.closed] with wal := none, held := none }) =
          { (w.after s).note [.closed] with wal := none, held := none } := call_quiet hspec
  dsimp only
  rw [hcall]
  exact ⟨hleft, fun o' ho' => nomatch ho'⟩

theorem busy_new : Busy World.new := ⟨fun hne => absurd rfl hne, fun _ ho => nomatch ho⟩

/-- records are appended, some of them maybe in vain -/
theorem Pending.appendAll (h : Pending w ls) (hbusy : Busy w) (payloads : List Payload) :
    ∃ ls', Pending (w.run ((payloads.map .append).map Action.quiet)) ls' ∧
      Busy (w.run ((payloads.map .append).map Action.quiet)) ∧ ∀ l ∈ ls', l ∈ ls ∨ ∃ p ∈ payloads, p.bytes = l := by
  induction payloads generalizing w ls with
  | nil => exact ⟨ls, h, hbusy, fun l hl => .inl hl⟩
  | cons payload payloads ih =>
    have hbusy' := hbusy.append h payload
    obtain ⟨htrue, hfalse⟩ := h.append payload
    have hnext : ∃ ls', Pending (w.tryAppend payload).1 ls' ∧ ∀ l ∈ ls', l ∈ ls ∨ payload.bytes = l := by
      cases hok : (w.tryAppend payload).2 with
      | false => exact ⟨ls, (hfalse hok).1, fun l hl => .inl hl⟩
      | true =>
        refine ⟨_, htrue hok, fun l hl => ?_⟩
        split_ifs at hl
        · exact .inl hl
        · rcases List.mem_append.1 hl with hl | hl
          · exact .inl hl
          · exact .inr (List.mem_singleton.1 hl).symm
    obtain ⟨ls', hpend, hls'⟩ := hnext
    obtain ⟨ls'', hrun, hbusy'', hls''⟩ := ih hpend hbusy'
    refine ⟨ls'', hrun, hbusy'', fun l hl => ?_⟩
    rcases hls'' l hl with hl | ⟨p, hp, rfl⟩
    · rcases hls' l hl with hl | rfl
      · exact .inl hl
      · exact .inr ⟨payload, List.mem_cons_self, rfl⟩
    · exact .inr ⟨p, List.mem_cons_of_mem _ hp, rfl⟩

/-- the files of an object which appended the records `payloads` and was destroyed, opened again -/
theorem pending_reopened (payloads : List Payload) (maxSize : ℕ) :
    ∃ ls, Pending (((built payloads).step (Action.quiet .close)).step (Action.quiet (.start maxSize))) ls ∧
      Busy (((built payloads).step (Action.quiet .close)).step (Action.quiet (.start maxSize))) ∧
      ∀ l ∈ ls, ∃ p ∈ payloads, p.bytes = l := by
  have hstart : Busy (World.new.step (Action.quiet .start)) := busy_new.start rfl rfl 0
  obtain ⟨ls, hpend, hbusy, hls⟩ := (pending_start 0).appendAll hstart payloads
  have hbuilt : built payloads = (World.new.step (Action.quiet .start)).run
    ((payloads.map .append).map Action.quiet) := rfl
  rw [← hbuilt] at hpend hbusy
  obtain ⟨hnone, hfree, -, -⟩ := hpend.closed
  exact ⟨ls, hpend.reopen maxSize, (hbusy.close hpend).start hnone hfree maxSize,
    fun l hl => (hls l hl).resolve_left List.not_mem_nil⟩

/-- **A record waits** in a WAL which says that its replay is pending. -/
theorem Pending.waits (h : Pending w ls) (hbusy : Busy w) (hp : w.isReplayPending = some true) : ls ≠ [] := by
  rintro rfl
  obtain ⟨o, ho⟩ := h.opened
  have hpending : o.pendingReplay = true := by
    unfold World.isReplayPending at hp
    rw [ho] at hp
    exact Option.some.inj hp
  have hawait := hbusy.object o ho
  have hlt := hawait.left (hawait.pending hpending)
  have hnil : w.files.walBytes.drop w.files.commitValue = [] := by
    simpa using h.stored.split
  have hle := List.drop_eq_nil_iff.1 hnil
  omega

end Busy

end DominoLogForwarder.Wal
