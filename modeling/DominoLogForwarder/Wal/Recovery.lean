/-
One `Replay` with a consumer which accepts everything, on a machine where no system call fails, is a complete recovery:
whatever bytes are in the WAL file from its position on, the whole records are delivered in order, the rest goes to the
`.corrupt` file, and the WAL is empty (`replayAll_spec`). `recovers_all` is this for a WAL file which was left behind
without a commit file, and for a file which only `Append` wrote.
-/
import DominoLogForwarder.Wal.Delivery

namespace DominoLogForwarder.Wal

open CrashProg Framing History

/-! ## A whole replay -/

namespace World

/-- the loop of `Replay`, with a consumer which always answers true. A record has at least one byte, so `fuel` is enough
if it is larger than the WAL file -/
def acceptAll : ℕ → World → World
  | 0, w => w
  | fuel + 1, w =>
    let w' := w.step (Action.quiet .replayRead)
    match w'.replay with
    | some ⟨_, .consuming _, _⟩ => acceptAll fuel (w'.step (Action.quiet (.consume .accept)))
    | _ => w'

/-- one call of `Replay` -/
def replayAll (w : World) : World :=
  let w' := w.step (Action.quiet .replayStart)
  (w'.acceptAll (w'.files.walBytes.length + 1)).step (Action.quiet .replayEnd)

end World

/-- the records which were delivered, in order -/
def Event.delivered? : Event → Option Bytes
  | .delivered _ r => some r
  | _ => none

def deliveredOf (tr : List Event) : List Bytes := tr.filterMap Event.delivered?

theorem deliveredOf_append (tr tr' : List Event) : deliveredOf (tr ++ tr') = deliveredOf tr ++ deliveredOf tr' :=
  List.filterMap_append

/-- the history of the loop: every record is delivered and accepted -/
def handedOver (g : ℕ) (rs : List Bytes) : List Event := rs.flatMap fun r => [.delivered g r, .accepted g r]

theorem handedOver_cons (g : ℕ) (r : Bytes) (rs : List Bytes) :
    handedOver g (r :: rs) = .delivered g r :: .accepted g r :: handedOver g rs := rfl

theorem deliveredOf_handedOver (g : ℕ) (rs : List Bytes) : deliveredOf (handedOver g rs) = rs := by
  induction rs with
  | nil => rfl
  | cons r rs ih =>
    rw [handedOver_cons]
    exact congrArg (r :: ·) ih

theorem acceptedOf_handedOver (g : ℕ) (rs : List Bytes) : acceptedOf (handedOver g rs) = rs := by
  induction rs with
  | nil => rfl
  | cons r rs ih =>
    rw [handedOver_cons]
    exact congrArg (r :: ·) ih

/-! ## Its parts -/

section Parts

variable {w : World} {o : SimpleWal} {v : ReplayVars}

/-- a member function on a quiet machine: the result which its rule gives -/
theorem call_quiet {α : Type} {a : Action} {f : WalM α} {cut : List Event} {next : World → α → World}
    {Q : α → Sys → Prop} (h : wp f Q (fun _ => False) (w.sys o (Action.quiet a))) :
    ∃ r s, Q r s ∧ w.call (Action.quiet a) o f cut next = next (w.after s) r := by
  obtain ⟨r, s, hf, hq⟩ := exists_of_wp h
  refine ⟨r, s, hq, ?_⟩
  unfold World.call
  rw [hf]

theorem not_cut {a : Action} {P : Prop} (h : (w.sys o (Action.quiet a)).kern.crashIn ≠ none) : P := absurd rfl h

theorem not_failed {a : Action} {c : Call} {P : Prop} (h : (w.sys o (Action.quiet a)).kern.oracle c ≠ []) : P :=
  absurd rfl h

theorem step_replayStart (ho : w.wal = some o) (hr : o.replaying = false) {f : File} (hf : w.files.wal = some f) :
    ∃ off log, Takes (w.sys o (Action.quiet .replayStart)) off ∧ w.step (Action.quiet .replayStart) =
      { w with
        wal := some { o with replaying := true, commitChecked := true }
        log := log
        replay := some ⟨{ newOffset := off }, .reading, w.gen⟩
        trace := w.trace ++ [.replaying] } := by
  have hspec : wp Wal.replayStart (fun r s => ∃ off, Takes (w.sys o (Action.quiet .replayStart)) off ∧
      r = some { newOffset := off } ∧ s.files = w.files ∧ s.wal = { o with replaying := true, commitChecked := true })
      (fun _ => False) (w.sys o (Action.quiet .replayStart)) := by
    refine wp_replayStart (D := fun _ => False) (fun _ off l k _ ht => ⟨off, ht, rfl, rfl, rfl⟩) (fun hno => ?_)
      not_cut
    rcases hno with h | h | h | h
    · have h' : o.replaying = true := h
      rw [hr] at h'
      cases h'
    · have h' : w.files.wal = none := h
      rw [hf] at h'
      cases h'
    · exact not_failed h
    · exact not_failed h
  obtain ⟨r, s, ⟨off, ht, hoff, hfs, hw⟩, hstep⟩ := call_quiet hspec
  refine ⟨off, s.log, ht, ?_⟩
  show w.replayStart _ = _
  unfold World.replayStart
  rw [ho]
  dsimp only
  rw [hstep, hoff]
  simp [World.note, World.after, hfs, hw]

/-- the loop finds a record -/
theorem step_read_record (ho : w.wal = some o) (hp : w.replay = some ⟨v, .reading, w.gen⟩) {r rest : Bytes}
    (hparse : parseFrame lenSize (w.files.walBytes.drop v.newOffset) = some (r, rest)) :
    ∃ log, w.step (Action.quiet .replayRead) =
      { w with
        log := log
        replay := some ⟨{ v with clearOk := true }, .consuming r, w.gen⟩
        trace := w.trace ++ [.delivered w.gen r] } := by
  have hspec : wp (Wal.replayRead v)
      (fun a s => a = ({ v with clearOk := true }, some r) ∧ s.files = w.files ∧ s.wal = o) (fun _ => False)
        (w.sys o (Action.quiet .replayRead)) := by
    have hparse' : parseFrame lenSize ((w.sys o (Action.quiet .replayRead)).files.walBytes.drop v.newOffset) =
        some (r, rest) := hparse
    have hne : w.files.walBytes.drop v.newOffset ≠ [] := by
      intro h0
      rw [h0] at hparse
      cases hparse
    have hlt : v.newOffset < w.files.walBytes.length := by
      by_contra hge
      exact hne (List.drop_eq_nil_of_le (by omega))
    refine wp_replayRead (D := fun _ => False) (fun r' rest' hparse'' _ l k _ => ?_) (fun fs hfs => ?_) (fun hgt => ?_)
      (fun q l k _ hno => ?_) (fun h => not_cut h)
    · rw [hparse'] at hparse''
      obtain ⟨rfl, -⟩ := Prod.mk.inj (Option.some.inj hparse'')
      exact ⟨rfl, rfl, rfl⟩
    · exfalso
      rcases hfs with ⟨heq, -⟩ | ⟨-, -, hnone | ⟨n, hn⟩⟩
      · exact absurd heq (Nat.ne_of_lt hlt)
      · rw [hparse'] at hnone
        cases hnone
      · cases hn
    · exact absurd hgt (Nat.not_lt.2 hlt.le)
    · obtain ⟨c, -, hno⟩ := hno
      exact not_failed hno
  obtain ⟨a, s, ⟨ha, hfs, hw⟩, hstep⟩ := call_quiet hspec
  refine ⟨s.log, ?_⟩
  show w.replayRead _ = _
  unfold World.replayRead
  rw [ho, hp]
  dsimp only
  rw [hstep, ha]
  simp [World.replayReadNext, World.note, World.after, hfs, hw, ← ho]

/-- the consumer accepts -/
theorem step_accept (ho : w.wal = some o) {r : Bytes} {g : ℕ} (hp : w.replay = some ⟨v, .consuming r, g⟩) :
    w.step (Action.quiet (.consume .accept)) =
      { w with replay := some ⟨v.accept r.length, .reading, g⟩, trace := w.trace ++ [.accepted g r] } := by
  show w.consume (Action.quiet (.consume .accept)) .accept = _
  unfold World.consume
  rw [ho, hp]
  simp [World.note, ho]

/-- what is left of the files when the bytes `rest` could not be read -/
def Files.recovered (fs : Files) (rest : Bytes) : Files := (if rest = [] then fs else fs.quarantined rest).cleared

/-- the loop finds no record, and empties the WAL -/
theorem step_read_end (ho : w.wal = some o) (hfd : o.fd = true) (hp : w.replay = some ⟨v, .reading, w.gen⟩)
    (hch : v.changed = false) (hle : v.newOffset ≤ w.files.walBytes.length)
    (hparse : parseFrame lenSize (w.files.walBytes.drop v.newOffset) = none) :
    ∃ log, w.step (Action.quiet .replayRead) =
      { w with
        files := w.files.recovered (w.files.walBytes.drop v.newOffset)
        wal := some o.cleared
        log := log
        replay := some ⟨{ v with cleared := true, clearOk := true }, .ending, w.gen⟩
        trace := w.trace ++ [.emptied] } := by
  have hspec : wp (Wal.replayRead v) (fun a s => a = ({ v with cleared := true, clearOk := true }, none) ∧
      s.files = w.files.recovered (w.files.walBytes.drop v.newOffset) ∧ s.wal = o.cleared) (fun _ => False)
      (w.sys o (Action.quiet .replayRead)) := by
    refine wp_replayRead (D := fun _ => False) (fun r' rest' hsome => ?_) (fun fs hfs l k hk => ?_) (fun hgt => ?_)
      (fun q l k _ hno => ?_) (fun h => not_cut h)
    · have hsome' : parseFrame lenSize (w.files.walBytes.drop v.newOffset) = some (r', rest') := hsome
      rw [hparse] at hsome'
      cases hsome'
    · have hcleared : fs.cleared = w.files.recovered (w.files.walBytes.drop v.newOffset) := by
        rcases hfs with ⟨heq, rfl⟩ | ⟨hlt, rfl, -⟩
        · have hnil : w.files.walBytes.drop v.newOffset = [] := List.drop_eq_nil_of_le heq.ge
          rw [Files.recovered, if_pos hnil]
          rfl
        · have hne : w.files.walBytes.drop v.newOffset ≠ [] := by
            intro h0
            exact absurd hlt (Nat.not_lt.2 (List.drop_eq_nil_iff.1 h0))
          rw [Files.recovered, if_neg hne]
          rfl
      refine wp_clearInternal (D := fun _ => False) (fun hfd' => ?_) (fun _ l k _ l => ?_) (fun _ l k _ hno => ?_)
        (fun _ l k _ hno => ?_) (fun _ l k _ hno => ?_) fun hcr => ?_
      · have hfd'' : o.fd = false := hfd'
        rw [hfd] at hfd''
        cases hfd''
      · exact ⟨rfl, hcleared, rfl⟩
      · exact absurd (hk.reliable rfl) hno
      · exact absurd (hk.reliable rfl) hno
      · exact absurd (hk.reliable rfl) hno
      · exact absurd (hk.alive rfl) hcr
    · exact absurd hgt (Nat.not_lt.2 hle)
    · obtain ⟨c, -, hno⟩ := hno
      exact not_failed hno
  obtain ⟨a, s, ⟨ha, hfs, hw⟩, hstep⟩ := call_quiet hspec
  refine ⟨s.log, ?_⟩
  show w.replayRead _ = _
  unfold World.replayRead
  rw [ho, hp]
  dsimp only
  rw [hstep, ha]
  simp [World.replayReadNext, World.note, World.after, hfs, hw, hch]

/-- the last section, after the WAL was emptied -/
theorem step_replayEnd (ho : w.wal = some o) {g : ℕ} (hp : w.replay = some ⟨v, .ending, g⟩) (hcl : v.cleared = true) :
    ∃ log, w.step (Action.quiet .replayEnd) =
      { w with
        wal := some { o with replaying := false }
        log := log
        replay := none
        trace := w.trace ++ [.replayed v.clearOk] } := by
  have hspec : wp (Wal.replayEnd v)
      (fun b s => b = v.clearOk ∧ s.files = w.files ∧ s.wal = { o with replaying := false }) (fun _ => False)
        (w.sys o (Action.quiet .replayEnd)) := by
    refine wp_replayEnd (D := fun _ => False) (fun _ l => ⟨rfl, rfl, rfl⟩) (fun hno => ?_) (fun hno => ?_)
    · rw [hcl] at hno
      cases hno
    · rw [hcl] at hno
      cases hno
  obtain ⟨b, s, ⟨hb, hfs, hw⟩, hstep⟩ := call_quiet hspec
  refine ⟨s.log, ?_⟩
  show w.replayEnd _ = _
  unfold World.replayEnd
  rw [ho, hp]
  dsimp only
  rw [hstep, hb]
  simp [World.note, World.after, hfs, hw]

end Parts

/-! ## The loop -/

section Loop

variable {w : World} {o : SimpleWal} {v : ReplayVars}

/-- a record is at least one byte long -/
theorem length_le_span (rs : List Bytes) : rs.length ≤ span lenSize rs := by
  induction rs with
  | nil => exact le_rfl
  | cons r rs ih =>
    rw [span_cons, List.length_cons]
    have : lenSize = 4 := rfl
    omega

/-- the loop delivers the records from its position on, puts the rest aside and empties the WAL. The induction is on the
records which are left: each round takes one -/
theorem acceptAll_spec {rs : List Bytes} {rest : Bytes} {fuel : ℕ} (ho : w.wal = some o) (hfd : o.fd = true)
    (hp : w.replay = some ⟨v, .reading, w.gen⟩) (hcl : v.changed = false) (hle : v.newOffset ≤ w.files.walBytes.length)
    (hparse : Parses lenSize (w.files.walBytes.drop v.newOffset) rs rest) (hfuel : rs.length < fuel) :
    ∃ log v', v'.cleared = true ∧ v'.clearOk = true ∧ w.acceptAll fuel =
      { w with
        files := w.files.recovered rest
        wal := some o.cleared
        log := log
        replay := some ⟨v', .ending, w.gen⟩
        trace := w.trace ++ (handedOver w.gen rs ++ [.emptied]) } := by
  induction rs generalizing w v fuel with
  | nil =>
    obtain ⟨fuel, rfl⟩ : ∃ n, fuel = n + 1 := ⟨fuel - 1, by omega⟩
    have hrest : w.files.walBytes.drop v.newOffset = rest := by simpa using hparse.split
    obtain ⟨log, hstep⟩ := step_read_end ho hfd hp hcl hle (hrest ▸ hparse.stop)
    refine ⟨log, { v with cleared := true, clearOk := true }, rfl, rfl, ?_⟩
    rw [World.acceptAll]
    simp only [hstep, hrest]
    rfl
  | cons r rs ih =>
    obtain ⟨fuel, rfl⟩ : ∃ n, fuel = n + 1 := ⟨fuel - 1, by omega⟩
    have hframe : parseFrame lenSize (w.files.walBytes.drop v.newOffset) = some (r, encode lenSize rs ++ rest) := by
      rw [hparse.split, encode_cons, List.append_assoc]
      exact parseFrame_frame (hparse.fits r List.mem_cons_self) _
    obtain ⟨log, hstep⟩ := step_read_record ho hp hframe
    -- the position behind this record
    have hsize : w.files.walBytes.length = v.newOffset + (lenSize + r.length + span lenSize rs + rest.length) := by
      have h := congrArg List.length hparse.split
      rw [List.length_drop, List.length_append, length_encode, span_cons] at h
      omega
    have hnext : w.files.walBytes.drop (v.newOffset + (lenSize + r.length)) = encode lenSize rs ++ rest := by
      rw [← List.drop_drop, hparse.split, encode_cons, List.append_assoc]
      exact List.drop_left' (length_frame _)
    rw [World.acceptAll]
    simp only [hstep]
    have haccept := step_accept (w := { w with
        log := log
        replay := some ⟨{ v with clearOk := true }, .consuming r, w.gen⟩
        trace := w.trace ++ [.delivered w.gen r] }) ho rfl
    rw [haccept]
    have hless : rs.length < fuel := by
      rw [List.length_cons] at hfuel
      omega
    obtain ⟨log', v', hc', hok', heq⟩ := ih (w := { w with
        log := log
        replay := some ⟨ReplayVars.accept { v with clearOk := true } r.length, .reading, w.gen⟩
        trace := (w.trace ++ [.delivered w.gen r]) ++ [.accepted w.gen r] })
      (v := ReplayVars.accept { v with clearOk := true } r.length) ho rfl hcl
      (by show v.newOffset + (lenSize + r.length) ≤ w.files.walBytes.length; omega)
      ⟨hnext, fun r' hr' => hparse.fits r' (List.mem_cons_of_mem _ hr'), hparse.stop⟩
      hless
    refine ⟨log', v', hc', hok', heq.trans ?_⟩
    simp [handedOver_cons]

/-- **A replay with a consumer which accepts everything recovers the whole WAL.** -/
theorem replayAll_spec (ho : w.wal = some o) (hfd : o.fd = true) (hr : o.replaying = false) {f : File}
    (hf : w.files.wal = some f) :
    ∃ off rs rest log, Takes (w.sys o (Action.quiet .replayStart)) off ∧
      Parses lenSize (w.files.walBytes.drop off) rs rest ∧ w.replayAll =
        { w with
          files := w.files.recovered rest
          wal := some { o.cleared with replaying := false, commitChecked := true }
          log := log
          replay := none
          trace := w.trace ++ (.replaying :: handedOver w.gen rs ++ [.emptied, .replayed true]) } := by
  obtain ⟨off, log, ht, hstart⟩ := step_replayStart ho hr hf
  obtain ⟨rs, rest, hparse⟩ := exists_parses (w := lenSize) (w.files.walBytes.drop off)
  have hfuel : rs.length < w.files.walBytes.length + 1 := by
    have h := congrArg List.length hparse.split
    rw [List.length_drop, List.length_append, length_encode] at h
    have := length_le_span rs
    omega
  obtain ⟨log', v', hcl, hok, hloop⟩ := acceptAll_spec (w := { w with
      wal := some { o with replaying := true, commitChecked := true }
      log := log
      replay := some ⟨{ newOffset := off }, .reading, w.gen⟩
      trace := w.trace ++ [.replaying] }) (v := { newOffset := off }) rfl hfd rfl rfl ht.le hparse hfuel
  obtain ⟨log'', hend⟩ := step_replayEnd (w := { w with
      files := w.files.recovered rest
      wal := some (SimpleWal.cleared { o with replaying := true, commitChecked := true })
      log := log'
      replay := some ⟨v', .ending, w.gen⟩
      trace := (w.trace ++ [.replaying]) ++ (handedOver w.gen rs ++ [.emptied]) }) rfl rfl hcl
  refine ⟨off, rs, rest, log'', ht, hparse, ?_⟩
  unfold World.replayAll
  rw [hstart]
  dsimp only
  rw [hloop]
  dsimp only
  rw [hend, hok]
  simp [SimpleWal.cleared]

end Loop

/-! ## A WAL file which was left behind -/

/-- a WAL file, without a commit file -/
def World.left (f : File) (corrupt : Option Bytes) : World := { files := { wal := some f, corrupt := corrupt } }

/-- a new object on this file, and a replay -/
def recover (f : File) (corrupt : Option Bytes) : World :=
  ((World.left f corrupt).step (Action.quiet .start)).replayAll

/-- what `Append` wrote -/
def built (payloads : List Payload) : World := World.new.run ((.start :: payloads.map .append).map Action.quiet)

/-- `rs` was delivered and accepted, in order, `rest` is behind what was in the `.corrupt` file, and nothing is left -/
structure Recovered (w : World) (rs : List Bytes) (rest : Bytes) (corrupt : Option Bytes) : Prop where
  delivered : deliveredOf w.trace = rs
  accepted : acceptedOf w.trace = rs
  returned : w.trace.getLast? = some (.replayed true)
  kept : w.files.corrupt = if rest = [] then corrupt else some (corrupt.getD [] ++ rest)
  emptied : w.files.walBytes = []
  done : w.isReplayPending = some false

section Left

variable {w : World}

theorem step_start (hnone : w.wal = none) (hfree : w.files.locked = false) (maxSize : ℕ) :
    ∃ log pending, w.step (Action.quiet (.start maxSize)) =
      { w with
        files := w.files.opened true
        wal := some (SimpleWal.opened { maxSize := maxSize } true true pending)
        log := log
        trace := w.trace ++ [.started true] } := by
  have hspec : wp Wal.init (fun ok s => ok = true ∧ s.files = w.files.opened true ∧
      ∃ pending, s.wal = SimpleWal.opened { maxSize := maxSize } true true pending) (fun _ => False)
      (w.sys { maxSize := maxSize } (Action.quiet (.start maxSize))) := by
    refine wp_init (D := fun _ => False) rfl rfl (fun gotLock pending l k _ _ hno _ _ => ?_) (fun hl => ?_)
      (fun l k _ hno => ?_) fun hcr => ?_
    · cases gotLock with
      | true => exact ⟨rfl, rfl, pending, rfl⟩
      | false => exact not_failed (hno rfl)
    · have hl' : w.files.locked = true := hl
      rw [hfree] at hl'
      cases hl'
    · exact not_failed hno
    · exact not_cut hcr
  obtain ⟨ok, s, ⟨hok, hfs, pending, hw⟩, hstep⟩ := call_quiet hspec
  refine ⟨s.log, pending, ?_⟩
  show w.start maxSize _ = _
  unfold World.start
  rw [hnone]
  dsimp only
  rw [hstep, hok]
  simp [World.note, World.after, hfs, hw]

theorem walBytes_recovered (fs : Files) (rest : Bytes) : (fs.recovered rest).walBytes = [] := walBytes_cleared _

theorem corrupt_recovered (fs : Files) (rest : Bytes) :
    (fs.recovered rest).corrupt = if rest = [] then fs.corrupt else some (fs.corrupt.getD [] ++ rest) := by
  unfold Files.recovered
  split_ifs <;> rfl

/-- without a commit file a replay starts with the first record -/
theorem takes_zero {o : SimpleWal} {off : ℕ} (hc : w.files.commitValue = 0)
    (ht : Takes (w.sys o (Action.quiet .replayStart)) off) : off = 0 := by
  have hval : (w.sys o (Action.quiet .replayStart)).files.commitValue = 0 := hc
  rcases ht with h | ⟨h, -⟩
  · unfold StartsAt at h
    rw [hval] at h
    omega
  · exact h

theorem recover_left (f : File) (corrupt : Option Bytes) :
    ∃ rs rest, Parses lenSize f.bytes rs rest ∧ Recovered (recover f corrupt) rs rest corrupt := by
  obtain ⟨log, pending, hstart⟩ := step_start (w := World.left f corrupt) rfl rfl 0
  obtain ⟨off, rs, rest, log', ht, hparse, heq⟩ := replayAll_spec (w := { World.left f corrupt with
      files := (World.left f corrupt).files.opened true
      wal := some (SimpleWal.opened {} true true pending)
      log := log
      trace := (World.left f corrupt).trace ++ [.started true] }) rfl rfl rfl (f := f) rfl
  have hoff : off = 0 := takes_zero rfl ht
  subst hoff
  have hrun : recover f corrupt = _ := (congrArg World.replayAll hstart).trans heq
  refine ⟨rs, rest, hparse, ?_⟩
  rw [hrun]
  constructor
  · show deliveredOf (.started true :: .replaying :: (handedOver 0 rs ++ [.emptied, .replayed true])) = rs
    refine (deliveredOf_append (handedOver 0 rs) _).trans ?_
    rw [deliveredOf_handedOver]
    exact List.append_nil _
  · show acceptedOf (.started true :: .replaying :: (handedOver 0 rs ++ [.emptied, .replayed true])) = rs
    refine (acceptedOf_append (handedOver 0 rs) _).trans ?_
    rw [acceptedOf_handedOver]
    exact List.append_nil _
  · show ((.started true :: .replaying :: handedOver 0 rs ++ [.emptied, .replayed true] : List Event)).getLast? = _
    rw [List.getLast?_append]
    rfl
  · exact corrupt_recovered _ _
  · exact walBytes_recovered _ _
  · rfl

/-- opening and appending accept nothing -/
theorem acceptedIn_step_plain {g : ℕ} {a : Action} (ha : (∃ maxSize, a = .start maxSize) ∨ ∃ p, a = .append p) :
    acceptedIn g (w.step (Action.quiet a)).trace = acceptedIn g w.trace := by
  have hcall : ∀ {α : Type} (o : SimpleWal) (f : WalM α) (e : α → Event), (∀ r, Plain (e r)) →
      acceptedIn g (w.call (Action.quiet a) o f [] fun w' r => w'.note [e r]).trace = acceptedIn g w.trace := by
    intro α o f e he
    unfold World.call
    cases f (w.sys o (Action.quiet a)) with
    | done r s => exact acceptedIn_concat_plain (he r)
    | crash s => exact acceptedIn_concat_plain ⟨rfl, rfl⟩
  rcases ha with ⟨maxSize, rfl⟩ | ⟨p, rfl⟩
  · show acceptedIn g (w.start maxSize _).trace = _
    unfold World.start
    cases w.wal with
    | none => exact hcall _ _ _ fun r => ⟨rfl, rfl⟩
    | some o => rfl
  · show acceptedIn g (w.append _ p).trace = _
    unfold World.append
    cases w.wal with
    | none => rfl
    | some o =>
      unfold World.call
      dsimp only
      cases Wal.append p (w.sys o (Action.quiet (.append p))) with
      | done r s => exact (acceptedIn_append _ _ _).trans (List.append_nil _)
      | crash s => exact (acceptedIn_append _ _ _).trans (List.append_nil _)

/-- a file which only `Append` wrote holds the appended records -/
theorem parses_built (payloads : List Payload) :
    Parses lenSize ((built payloads).files.wal.getD File.empty).bytes (appendedOf (built payloads).trace) [] := by
  have hplain : ∀ a ∈ Action.start :: payloads.map .append, (∃ maxSize, a = .start maxSize) ∨ ∃ p, a = .append p := by
    intro a ha
    rcases List.mem_cons.1 ha with rfl | ha
    · exact Or.inl ⟨0, rfl⟩
    · obtain ⟨p, -, rfl⟩ := List.mem_map.1 ha
      exact Or.inr ⟨p, rfl⟩
  have hnot : ∀ a ∈ Action.start :: payloads.map .append, a ≠ .kill ∧ a ≠ .consume .throw ∧ a ≠ .clear := by
    intro a ha
    rcases hplain a ha with ⟨maxSize, rfl⟩ | ⟨p, rfl⟩ <;> simp
  have hcalm : Calm (quietMode none) (built payloads) := by
    refine calm_run ⟨ok_new _, rfl⟩ (quiet_of_actions (fun h => (hnot _ h).1 rfl) fun h => (hnot _ h).2.1 rfl)
      (no_clear_of_actions fun h => (hnot _ h).2.2 rfl)
      (guarded_of_forall (fun _ st (_ : True) => ?_) _ _ fun _ _ => trivial)
    exact fun _ bs v hf => nomatch hf
  have hacc : acceptedIn 0 (built payloads).trace = [] := by
    have hall : Guarded World.step
        (fun _ st => ∃ a, st = Action.quiet a ∧ ((∃ maxSize, a = .start maxSize) ∨ ∃ p, a = .append p)) World.new
        ((.start :: payloads.map .append).map Action.quiet) :=
      guarded_of_forall (fun _ _ h => h) _ _ fun st hst => by
        obtain ⟨a, ha, rfl⟩ := List.mem_map.1 hst
        exact ⟨a, rfl, hplain a ha⟩
    refine hall.inv (I := fun w => acceptedIn 0 w.trace = []) (fun w st hG hI => ?_) rfl
    obtain ⟨a, rfl, ha⟩ := hG
    rw [acceptedIn_step_plain ha, hI]
  obtain ⟨⟨c, t, h⟩, hg⟩ := hcalm
  have hex := h.exact trivial
  have happ : c.appended = appendedOf (built payloads).trace := by
    rw [h.trace.live, hg]
    exact (hg ▸ h.trace.upTo : UpTo 0 _).appendedIn_zero
  have hfront : c.appended.take c.front = [] := by rw [← hex.all, h.trace.hist, hg, hacc]
  have hbase : c.appended.take c.base = [] := by
    refine List.prefix_nil.1 (hfront ▸ ?_)
    exact List.take_prefix_take_left (h.disk.valid.base_mark.trans h.disk.valid.mark_front)
  have hent : c.entries = c.appended := by
    have := List.take_append_drop c.base c.appended
    rwa [hbase, List.nil_append] at this
  have hnil : t = [] := h.whole.resolve_right id
  have hbytes : ((built payloads).files.wal.getD File.empty).bytes = (built payloads).files.walBytes := by
    unfold Files.walBytes
    cases (built payloads).files.wal <;> rfl
  rw [hbytes, ← happ, ← hent, ← hnil]
  exact h.disk.stored

end Left

/-- **Recovery parses any WAL file completely.** Whatever the file holds, a replay delivers the whole records in front,
keeps the rest in the `.corrupt` file, and empties the WAL. A file which only `Append` wrote has no rest. -/
theorem recovers_all (f : File) (corrupt : Option Bytes) (payloads : List Payload) :
    (∃ rs rest, Parses lenSize f.bytes rs rest ∧ Recovered (recover f corrupt) rs rest corrupt) ∧
      Recovered (recover ((built payloads).files.wal.getD File.empty) corrupt) (appendedOf (built payloads).trace) []
        corrupt := by
  refine ⟨recover_left f corrupt, ?_⟩
  obtain ⟨rs, rest, hparse, hrec⟩ := recover_left ((built payloads).files.wal.getD File.empty) corrupt
  obtain ⟨rfl, rfl⟩ := hparse.unique (parses_built payloads)
  exact hrec

end DominoLogForwarder.Wal
