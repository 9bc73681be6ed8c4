/-
What holds in every state of the socket sender: the buffer holds the accepted lines which were not sent completely yet,
each connection took whole lines and the start of one more, and together they took the first lines which were accepted.

`Holds s ls` is about the queue alone: the lines `ls` are in it. `Inv` connects it with the connections.
-/
import DominoLogForwarder.Domfwd.Socket

namespace DominoLogForwarder.Domfwd

open Lines Slice

/-! ## The queue -/

/-- the bytes of the oldest line which were sent already -/
def Sender.part (s : Sender) : Bytes := slice s.buffer s.head s.sendPos

structure Holds (s : Sender) (ls : List Bytes) : Prop where
  cap : s.buffer.length = s.maxBytes
  head_send : s.head ≤ s.sendPos
  send_tail : s.sendPos ≤ s.tail
  tail_le : s.tail ≤ s.maxBytes
  bytes : slice s.buffer s.head s.tail = joinLines nl ls
  count : s.lines = ls.length
  valid : ∀ l ∈ ls, nl ∉ l
  start : s.head = 0 ∨ s.buffer[s.head - 1]? = some nl

section Queue

variable {s : Sender} {ls : List Bytes}

theorem Holds.head_tail (h : Holds s ls) : s.head ≤ s.tail := h.head_send.trans h.send_tail

theorem Holds.tail_length (h : Holds s ls) : s.tail ≤ s.buffer.length := h.tail_le.trans h.cap.ge

theorem Holds.length_pending (h : Holds s ls) : (slice s.buffer s.head s.tail).length = s.tail - s.head :=
  length_slice h.tail_length

theorem Holds.compact (h : Holds s ls) : Holds s.compact ls ∧ s.compact.part = s.part := by
  have hht := h.head_tail
  have hhs := h.head_send
  have hst := h.send_tail
  have hlen := h.length_pending
  have hcap := h.tail_length
  have hmove : ∀ j, s.head + j ≤ s.tail → slice (put s.buffer 0 (slice s.buffer s.head s.tail)) 0 j =
      slice s.buffer s.head (s.head + j) := by
    intro j hj
    rw [slice_put_zero (by omega), slice_slice hj, Nat.add_zero]
  refine ⟨?_, ?_⟩
  · exact {
      cap := (length_put (by omega)).trans h.cap
      head_send := Nat.zero_le _
      send_tail := Nat.sub_le_sub_right hst _
      tail_le := (Nat.sub_le _ _).trans h.tail_le
      bytes := by
        show slice (put s.buffer 0 _) 0 (s.tail - s.head) = _
        rw [hmove _ (by omega), Nat.add_sub_cancel' hht]
        exact h.bytes
      count := h.count
      valid := h.valid
      start := Or.inl rfl }
  · show slice (put s.buffer 0 _) 0 (s.sendPos - s.head) = _
    rw [hmove _ (by omega), Nat.add_sub_cancel' hhs]
    rfl

theorem Holds.store (h : Holds s ls) {line : Bytes} (hroom : s.tail + line.length + 1 ≤ s.maxBytes)
    (hline : nl ∉ line) :
    Holds (s.store line) (ls ++ [line]) ∧ (s.store line).part = s.part := by
  have hht := h.head_tail
  have hcap := h.tail_length
  have hlen : (line ++ [nl]).length = line.length + 1 := by simp
  refine ⟨?_, slice_put_before h.send_tail hcap⟩
  exact {
    cap := (length_put (by rw [hlen, h.cap]; omega)).trans h.cap
    head_send := h.head_send
    send_tail := h.send_tail.trans (Nat.le_add_right _ _)
    tail_le := by
      show s.tail + (line.length + 1) ≤ s.maxBytes
      omega
    bytes := by
      show slice (put s.buffer s.tail (line ++ [nl])) s.head (s.tail + (line.length + 1)) = _
      rw [← slice_append hht (Nat.le_add_right _ _), slice_put_before le_rfl hcap, h.bytes, ← hlen, slice_put_at hcap]
      simp
    count := by
      show s.lines + 1 = _
      rw [h.count, List.length_append, List.length_singleton]
    valid := fun l hl => by
      rcases List.mem_append.1 hl with hl | hl
      · exact h.valid l hl
      · rw [List.mem_singleton.1 hl]
        exact hline
    start := by
      rcases Nat.eq_zero_or_pos s.head with h0 | hpos
      · exact Or.inl h0
      · refine Or.inr ?_
        show (put s.buffer s.tail _)[s.head - 1]? = _
        rw [getElem?_put_before (by omega) hcap]
        exact h.start.resolve_left (by omega) }

/-! ## Completed lines -/

/-- the first line was sent completely -/
theorem Holds.first (h : Holds s ls) {n : ℕ} (hfind : find nl s.part = some n) :
    ∃ l ls', ls = l :: ls' ∧ l.length = n ∧ s.head + n + 1 ≤ s.sendPos ∧
      s.part = l ++ nl :: slice s.buffer (s.head + n + 1) s.sendPos ∧
      Holds { s with head := s.head + n + 1, sent := s.sent + 1, lines := s.lines - 1 } ls' := by
  have hst := h.send_tail
  have hcap := h.tail_length
  obtain ⟨l, ys, hpart, rfl, hl⟩ := find_eq_some hfind
  have hlenp : s.part.length = s.sendPos - s.head := length_slice (hst.trans hcap)
  have hle : s.head + l.length + 1 ≤ s.sendPos := by
    rw [hpart, List.length_append, List.length_cons] at hlenp
    omega
  -- the queue from its head
  have hpend : l ++ nl :: (ys ++ slice s.buffer s.sendPos s.tail) = joinLines nl ls := by
    rw [← h.bytes, ← slice_append h.head_send hst]
    show _ = s.part ++ _
    rw [hpart, List.append_assoc, List.cons_append]
  cases ls with
  | nil =>
    rw [joinLines_nil] at hpend
    exact absurd hpend (by simp)
  | cons l' ls' =>
    rw [joinLines_cons] at hpend
    obtain ⟨rfl, htail⟩ := first_line_inj hl (h.valid l' List.mem_cons_self) hpend
    have hfirst : slice s.buffer s.head (s.head + l.length + 1) = l ++ [nl] ∧
        slice s.buffer (s.head + l.length + 1) s.sendPos = ys := by
      have hsplit : slice s.buffer s.head (s.head + l.length + 1) ++ slice s.buffer (s.head + l.length + 1) s.sendPos =
          slice s.buffer s.head s.sendPos := slice_append (by omega) hle
      have hp : slice s.buffer s.head s.sendPos = (l ++ [nl]) ++ ys := by
        rw [List.append_assoc]
        exact hpart
      rw [hp] at hsplit
      refine List.append_inj hsplit ?_
      rw [length_slice (by omega), List.length_append, List.length_singleton]
      omega
    have hbefore : s.buffer[s.head + l.length + 1 - 1]? = some nl := by
      refine getElem?_of_slice (a := s.head) (by omega) (by omega) ?_
      rw [hfirst.1, List.getLast?_concat]
    refine ⟨l, ls', rfl, rfl, hle, ?_, ?_⟩
    · rw [hfirst.2]
      exact hpart
    · exact {
        cap := h.cap
        head_send := hle
        send_tail := hst
        tail_le := h.tail_le
        bytes := by
          show slice s.buffer (s.head + l.length + 1) s.tail = _
          rw [← slice_append hle hst, hfirst.2, htail]
        count := by
          show s.lines - 1 = _
          rw [h.count, List.length_cons, Nat.add_sub_cancel]
        valid := fun l' hl' => h.valid l' (List.mem_cons_of_mem _ hl')
        start := Or.inr hbefore }

/-- the lines `done` were sent completely, the lines `ls'` were not -/
structure Completed (s s' : Sender) (done ls' : List Bytes) : Prop where
  holds : Holds s' ls'
  sent : s'.sent = s.sent + done.length
  part : joinLines nl done ++ s'.part = s.part
  rest : nl ∉ s'.part
  state : s'.state = s.state

theorem Holds.part_eq_nil (h : Holds s ls) (hge : s.sendPos ≤ s.head) : s.part = [] := by
  rw [Sender.part, le_antisymm hge h.head_send, slice_self]

/-- no line was sent completely -/
theorem Holds.none_completed (h : Holds s ls) (hno : nl ∉ s.part) : ∃ done ls', ls = done ++ ls' ∧
    Completed s s done ls' :=
  ⟨[], ls, rfl, h, rfl, rfl, hno, rfl⟩

/-- the loop takes the lines one by one. The induction is on the bytes between the head and the send position -/
theorem Holds.completeLoop (h : Holds s ls) {fuel : ℕ} (hfuel : s.sendPos - s.head ≤ fuel) :
    ∃ done ls', ls = done ++ ls' ∧ Completed s (s.completeLoop fuel) done ls' := by
  induction fuel generalizing s ls with
  | zero =>
    apply h.none_completed
    rw [h.part_eq_nil (by omega)]
    exact List.not_mem_nil
  | succ fuel ih =>
    rw [Sender.completeLoop]
    split_ifs with hlt
    · cases hfind : find nl (slice s.buffer s.head s.sendPos) with
      | none => exact h.none_completed (find_eq_none.1 hfind)
      | some n =>
        obtain ⟨l, ls', rfl, hn, hle, hpart, hnext⟩ := h.first hfind
        obtain ⟨done, ls'', rfl, hc⟩ := ih hnext (by
          show s.sendPos - (s.head + n + 1) ≤ fuel
          omega)
        refine ⟨l :: done, ls'', rfl, hc.holds, ?_, ?_, hc.rest, hc.state⟩
        · rw [hc.sent, List.length_cons]
          show s.sent + 1 + done.length = _
          omega
        · rw [hpart, joinLines_cons, List.append_assoc, List.cons_append, hc.part]
          rfl
    · apply h.none_completed
      rw [h.part_eq_nil (by omega)]
      exact List.not_mem_nil

theorem Holds.completeSentLines (h : Holds s ls) :
    ∃ done ls', ls = done ++ ls' ∧ Completed s s.completeSentLines done ls' := by
  obtain ⟨done, ls', hls, hc⟩ := h.completeLoop le_rfl
  refine ⟨done, ls', hls, ?_⟩
  unfold Sender.completeSentLines
  dsimp only
  split_ifs with hend
  · -- nothing is left, and the buffer starts anew
    have hh := hc.holds
    have hnil : ls' = [] := by
      have hbytes := hh.bytes
      rw [hend, slice_self] at hbytes
      cases ls' with
      | nil => rfl
      | cons l ls' => simp at hbytes
    have hpart : (s.completeLoop (s.sendPos - s.head)).part = [] := hh.part_eq_nil (hend ▸ hh.send_tail)
    have hpart' := hc.part
    rw [hpart] at hpart'
    refine ⟨?_, hc.sent, ?_, ?_, hc.state⟩
    · subst hnil
      exact ⟨hh.cap, le_rfl, le_rfl, Nat.zero_le _, slice_self _, hh.count, hh.valid, Or.inl rfl⟩
    · rw [Sender.part, slice_self]
      exact hpart'
    · rw [Sender.part, slice_self]
      exact List.not_mem_nil
  · exact hc

end Queue

/-! ## The invariant -/

structure Inv (w : World) : Prop where
  queue : Holds w.sender (w.accepted.drop w.sender.sent)
  sent_le : w.sender.sent ≤ w.accepted.length
  valid : ∀ l ∈ w.accepted, nl ∉ l
  part : nl ∉ w.sender.part
  /-- without a connection the oldest line starts from its beginning -/
  away : w.sender.state ≠ .connected → w.sender.sendPos = w.sender.head
  done : w.conns.flatMap (lines nl) = w.accepted.take w.sender.sent
  parts : ∀ conn ∈ w.conns, rest nl conn = [] ∨ ∃ l ∈ w.accepted, rest nl conn <+: l
  current : w.sender.state = .connected → ∃ old conn, w.conns = old ++ [conn] ∧ rest nl conn = w.sender.part

section Steps

variable {w : World}

theorem inv_ready (maxLines : ℕ) (buffer : Bytes) (now : ℕ) : Inv (World.ready maxLines buffer now) where
  queue := ⟨rfl, le_rfl, le_rfl, Nat.zero_le _, slice_self _, rfl, fun _ h => absurd h List.not_mem_nil, Or.inl rfl⟩
  sent_le := le_rfl
  valid := fun _ h => absurd h List.not_mem_nil
  part := by
    rw [Sender.part, World.ready, Sender.ready, slice_self]
    exact List.not_mem_nil
  away := fun _ => rfl
  done := rfl
  parts := fun _ h => absurd h List.not_mem_nil
  current := fun h => nomatch h

/-- members which no line depends on -/
theorem Inv.same {s : Sender} {log : List Message} (h : Inv w) (hs : s.buffer = w.sender.buffer)
    (hmax : s.maxBytes = w.sender.maxBytes) (hhead : s.head = w.sender.head) (hsend : s.sendPos = w.sender.sendPos)
    (htail : s.tail = w.sender.tail) (hlines : s.lines = w.sender.lines) (hsent : s.sent = w.sender.sent)
    (hstate : s.state = .connected → w.sender.state = .connected)
    (hstate' : w.sender.state = .connected → s.state = .connected) : Inv { w with sender := s, log := log } := by
  have hpart : s.part = w.sender.part := by rw [Sender.part, Sender.part, hs, hhead, hsend]
  have hq := h.queue
  constructor
  · show Holds s (w.accepted.drop s.sent)
    rw [hsent]
    refine ⟨?_, ?_, ?_, ?_, ?_, hlines.trans hq.count, hq.valid, ?_⟩
    · rw [hs, hmax]; exact hq.cap
    · rw [hhead, hsend]; exact hq.head_send
    · rw [hsend, htail]; exact hq.send_tail
    · rw [htail, hmax]; exact hq.tail_le
    · rw [hs, hhead, htail]; exact hq.bytes
    · rw [hs, hhead]; exact hq.start
  · show s.sent ≤ _
    rw [hsent]
    exact h.sent_le
  · exact h.valid
  · show nl ∉ s.part
    rw [hpart]
    exact h.part
  · intro hn
    show s.sendPos = s.head
    rw [hsend, hhead]
    exact h.away fun hc => hn (hstate' hc)
  · show _ = w.accepted.take s.sent
    rw [hsent]
    exact h.done
  · exact h.parts
  · intro hc
    obtain ⟨old, conn, hconn, hrest⟩ := h.current (hstate hc)
    exact ⟨old, conn, hconn, hrest.trans hpart.symm⟩

/-- what `Enqueue` does with a line which fits -/
theorem Inv.stored {s : Sender} {line : Bytes} (h : Inv w) (hq : Holds s (w.accepted.drop w.sender.sent ++ [line]))
    (hpart : s.part = w.sender.part) (hsent : s.sent = w.sender.sent) (hstate : s.state = w.sender.state)
    (haway : w.sender.sendPos = w.sender.head → s.sendPos = s.head) (hline : nl ∉ line) :
    Inv { w with sender := s, accepted := w.accepted ++ [line] } where
  queue := by
    show Holds s ((w.accepted ++ [line]).drop s.sent)
    rw [hsent, List.drop_append_of_le_length h.sent_le]
    exact hq
  sent_le := by
    show s.sent ≤ (w.accepted ++ [line]).length
    rw [hsent, List.length_append]
    exact h.sent_le.trans (Nat.le_add_right _ _)
  valid := fun l hl => by
    rcases List.mem_append.1 hl with hl | hl
    · exact h.valid l hl
    · rw [List.mem_singleton.1 hl]
      exact hline
  part := by
    show nl ∉ s.part
    rw [hpart]
    exact h.part
  away := fun hn => haway (h.away (hstate ▸ hn))
  done := by
    show _ = (w.accepted ++ [line]).take s.sent
    rw [hsent, List.take_append_of_le_length h.sent_le]
    exact h.done
  parts := fun conn hc => (h.parts conn hc).imp_right fun ⟨l, hl, hp⟩ => ⟨l, List.mem_append_left _ hl, hp⟩
  current := fun hc => by
    obtain ⟨old, conn, hconn, hrest⟩ := h.current (hstate ▸ hc)
    exact ⟨old, conn, hconn, hrest.trans hpart.symm⟩

theorem validLine_some {line : Bytes} : validLine (some line) = true ↔ line ≠ [] ∧ nl ∉ line := by
  simp [validLine, List.length_pos_iff]

theorem enqueue_inv (h : Inv w) (now : ℕ) (line : Option Bytes) : Inv (w.enqueue now line).1 := by
  unfold World.enqueue
  by_cases hconf : w.sender.configured = false
  · rw [if_pos hconf]
    exact h
  rw [if_neg hconf]
  by_cases hvalid : validLine line = false
  · rw [if_pos hvalid]
    exact h.same rfl rfl rfl rfl rfl rfl rfl id id
  rw [if_neg hvalid]
  cases line with
  | none => exact absurd rfl hvalid
  | some line =>
    have hline : nl ∉ line := (validLine_some.1 (by simpa using hvalid)).2
    dsimp only [Option.getD_some]
    split_ifs with hfull hroom
    · -- there is no room for it
      unfold World.logDrop
      split_ifs
      · exact h.same rfl rfl rfl rfl rfl rfl rfl id id
      · exact h.same rfl rfl rfl rfl rfl rfl rfl id id
    · obtain ⟨hc, hp⟩ := h.queue.compact
      have hfits : w.sender.compact.tail + line.length + 1 ≤ w.sender.compact.maxBytes :=
        not_lt.1 fun h0 => hfull (Or.inr h0)
      obtain ⟨hs, hp'⟩ := hc.store hfits hline
      refine h.stored hs (hp'.trans hp) rfl rfl (fun heq => ?_) hline
      show w.sender.sendPos - w.sender.head = 0
      omega
    · obtain ⟨hs, hp⟩ := h.queue.store (not_lt.1 hroom) hline
      exact h.stored hs hp rfl rfl id hline

/-! ## Connections -/

theorem disconnect_inv (h : Inv w) (now : ℕ) (reason : Reason) : Inv (w.disconnect now reason) := by
  have hq := h.queue
  -- the queue starts again with the oldest line
  have hs : ∀ b log, Inv { w with
      sender := { w.sender with
        state := .disconnected, sendPos := w.sender.head, nextAttempt := now + reconnectMs, loggedDown := b }
      log := log } := by
    intro b log
    exact {
      queue := ⟨hq.cap, le_rfl, hq.head_tail, hq.tail_le, hq.bytes, hq.count, hq.valid, hq.start⟩
      sent_le := h.sent_le
      valid := h.valid
      part := by
        rw [Sender.part, slice_self]
        exact List.not_mem_nil
      away := fun _ => rfl
      done := h.done
      parts := h.parts
      current := fun hc => nomatch hc }
  unfold World.disconnect
  dsimp only
  split_ifs
  · exact hs _ _
  · exact hs _ _
  · exact hs _ _

theorem connected_inv (h : Inv w) (hstate : w.sender.state ≠ .connected) : Inv w.connected := by
  have hq := h.queue
  exact {
    queue := ⟨hq.cap, hq.head_send, hq.send_tail, hq.tail_le, hq.bytes, hq.count, hq.valid, hq.start⟩
    sent_le := h.sent_le
    valid := h.valid
    part := h.part
    away := fun hn => absurd rfl hn
    done := by
      show (w.conns ++ [[]]).flatMap (lines nl) = _
      rw [List.flatMap_append, h.done]
      exact List.append_nil _
    parts := fun conn hc => by
      rcases List.mem_append.1 hc with hc | hc
      · exact h.parts conn hc
      · rw [List.mem_singleton.1 hc]
        exact Or.inl rfl
    current := fun _ => by
      refine ⟨w.conns, [], rfl, ?_⟩
      show _ = slice w.sender.buffer w.sender.head w.sender.sendPos
      rw [h.away hstate, slice_self]
      rfl }

theorem startConnect_inv (h : Inv w) (hstate : w.sender.state = .disconnected) (a : Answers) :
    Inv (w.startConnect a) := by
  have hne : w.sender.state ≠ .connected := by rw [hstate]; simp
  unfold World.startConnect
  split_ifs
  · exact disconnect_inv h _ _
  · exact disconnect_inv h _ _
  · cases a.connect with
    | ok => exact connected_inv h hne
    | wouldBlock => exact h.same rfl rfl rfl rfl rfl rfl rfl (fun hc => nomatch hc) fun hc => absurd hc hne
    | failed code => exact disconnect_inv h _ _

theorem checkConnect_inv (h : Inv w) (hstate : w.sender.state = .connecting) (a : Answers) : Inv
    (w.checkConnect a) := by
  have hne : w.sender.state ≠ .connected := by rw [hstate]; simp
  unfold World.checkConnect
  cases a.pollOut with
  | failed => exact disconnect_inv h _ _
  | notReady =>
    dsimp only
    split_ifs
    · exact disconnect_inv h _ _
    · exact h
  | ready =>
    dsimp only
    split
    · exact disconnect_inv h _ _
    · exact connected_inv h hne
    · exact disconnect_inv h _ _

theorem checkPeerClosed_inv (h : Inv w) (a : Answers) : Inv (w.checkPeerClosed a) := by
  unfold World.checkPeerClosed
  cases a.pollIn with
  | failed => exact h
  | notReady => exact h
  | ready =>
    cases a.recv with
    | data => exact h
    | closed => exact disconnect_inv h _ _
    | wouldBlock => exact h
    | failed => exact disconnect_inv h _ _

/-! ## Sending -/

theorem wire_concat (bytes : Bytes) (old : List Bytes) (conn : Bytes) :
    wire bytes (old ++ [conn]) = old ++ [conn ++ bytes] := by
  induction old with
  | nil => rfl
  | cons c old ih =>
    cases old with
    | nil => rfl
    | cons c' old => exact congrArg (c :: ·) ih

/-- the socket took some bytes of the queue: the lines which are complete now leave it -/
theorem took_inv (h : Inv w) (hstate : w.sender.state = .connected) {n : ℕ}
    (hn : n ≤ w.sender.tail - w.sender.sendPos) :
    Inv (w.took n) ∧ (w.took n).sender.state = .connected := by
  have hq := h.queue
  have hhs := hq.head_send
  have hst := hq.send_tail
  obtain ⟨old, conn, hconn, hrest⟩ := h.current hstate
  have hsent : Holds { w.sender with sendPos := w.sender.sendPos + n } (w.accepted.drop w.sender.sent) :=
    ⟨hq.cap, hhs.trans (Nat.le_add_right _ _), by show w.sender.sendPos + n ≤ w.sender.tail; omega,
      hq.tail_le, hq.bytes,
      hq.count, hq.valid, hq.start⟩
  obtain ⟨done, ls', hls, hc⟩ := hsent.completeSentLines
  have hsent' : (w.took n).sender.sent = w.sender.sent + done.length := hc.sent
  have htake : w.accepted.take (w.sender.sent + done.length) = w.accepted.take w.sender.sent ++ done := by
    rw [List.take_add, hls, List.take_left' rfl]
  have hdrop : w.accepted.drop (w.sender.sent + done.length) = ls' := by
    rw [← List.drop_drop, hls, List.drop_left' rfl]
  have hdone : ∀ l ∈ done, nl ∉ l := fun l hl => hq.valid l (hls ▸ List.mem_append_left _ hl)
  have hno : nl ∉ (w.took n).sender.part := hc.rest
  -- the connection: the part of the line it had already, and the new bytes
  have hnew : rest nl conn ++ slice w.sender.buffer w.sender.sendPos (w.sender.sendPos + n) =
      joinLines nl done ++ (w.took n).sender.part := by
    rw [hrest, Sender.part, slice_append hhs (Nat.le_add_right _ _)]
    exact hc.part.symm
  have hconns : (w.took n).conns =
      old ++ [conn ++ slice w.sender.buffer w.sender.sendPos (w.sender.sendPos + n)] := by
    show wire _ w.conns = _
    rw [hconn, wire_concat]
  have hlines : lines nl (conn ++ slice w.sender.buffer w.sender.sendPos (w.sender.sendPos + n)) =
      lines nl conn ++ done := by
    rw [lines_append, hnew, lines_joinLines hdone hno]
  have hrest' : rest nl (conn ++ slice w.sender.buffer w.sender.sendPos (w.sender.sendPos + n)) =
      (w.took n).sender.part := by
    rw [rest_append, hnew, rest_joinLines hdone hno]
  -- what is left of a line is the start of the oldest line in the queue
  have hpart : (w.took n).sender.part = [] ∨ ∃ l ∈ w.accepted, (w.took n).sender.part <+: l := by
    have hpre : (w.took n).sender.part <+: joinLines nl ls' := by
      rw [← hc.holds.bytes, ← slice_append hc.holds.head_send hc.holds.send_tail]
      exact List.prefix_append _ _
    cases ls' with
    | nil => exact Or.inl (List.prefix_nil.1 hpre)
    | cons l ls' =>
      refine Or.inr ⟨l, ?_, ?_⟩
      · exact List.mem_of_mem_drop (hdrop ▸ List.mem_cons_self)
      · rw [joinLines_cons] at hpre
        exact prefix_line hno hpre
  refine ⟨?_, hc.state.trans hstate⟩
  exact {
    queue := by
      rw [hsent']
      show Holds _ (w.accepted.drop _)
      rw [hdrop]
      exact hc.holds
    sent_le := by
      rw [hsent']
      show _ ≤ w.accepted.length
      have := congrArg List.length hls
      rw [List.length_drop, List.length_append] at this
      have := h.sent_le
      omega
    valid := h.valid
    part := hc.rest
    away := fun hne => absurd (hc.state.trans hstate) hne
    done := by
      rw [hsent', hconns]
      show _ = w.accepted.take _
      rw [htake, ← h.done, hconn, List.flatMap_append, List.flatMap_append, List.append_assoc]
      simp [hlines]
    parts := fun c hmem => by
      rw [hconns] at hmem
      rcases List.mem_append.1 hmem with hmem | hmem
      · exact h.parts c (hconn ▸ List.mem_append_left _ hmem)
      · rw [List.mem_singleton.1 hmem, hrest']
        exact hpart
    current := fun _ => ⟨old, _, hconns, hrest'⟩ }

theorem sendQueued_inv (gone : ℕ) (answers : List SendAnswer) (h : Inv w) (hstate : w.sender.state = .connected) :
    Inv (w.sendQueued gone answers) := by
  induction answers generalizing w with
  | nil => exact h
  | cons answer answers ih =>
    unfold World.sendQueued
    split_ifs with hmore
    · cases answer with
      | took n =>
        dsimp only
        split_ifs with hpos
        · obtain ⟨hnext, hstate'⟩ := took_inv h hstate ((min_le_right n _).trans (min_le_left _ sendChunk))
          exact ih hnext hstate'
        · exact h
      | wouldBlock => exact h
      | failed code => exact disconnect_inv h _ _
    · exact h

/-! ## Runs -/

theorem tryConnect_inv (h : Inv w) (a : Answers) : Inv (w.tryConnect a) := by
  unfold World.tryConnect
  split_ifs with hc
  · exact startConnect_inv h hc.1 a
  · exact h

theorem awaitConnect_inv (h : Inv w) (a : Answers) : Inv (w.awaitConnect a) := by
  unfold World.awaitConnect
  split_ifs with hc
  · exact checkConnect_inv h hc a
  · exact h

theorem useConnection_inv (h : Inv w) (a : Answers) : Inv (w.useConnection a) := by
  unfold World.useConnection
  split_ifs with hc
  · have hopen := checkPeerClosed_inv h a
    dsimp only
    split_ifs with hc'
    · exact sendQueued_inv _ _ hopen hc'
    · exact hopen
  · exact h

theorem pump_inv (h : Inv w) (a : Answers) : Inv (w.pump a) := by
  unfold World.pump
  split_ifs
  · exact h
  · exact useConnection_inv (awaitConnect_inv (tryConnect_inv h a) a) a

theorem flush_inv (h : Inv w) (limit : ℕ) (rounds : List (Answers × ℕ)) : Inv (w.flushLoop limit rounds).1 := by
  induction rounds generalizing w with
  | nil => exact h
  | cons round rounds ih =>
    obtain ⟨a, now⟩ := round
    have hnext := pump_inv h a
    rw [World.flushLoop]
    split_ifs
    · exact hnext
    · exact hnext
    · exact ih hnext

theorem step_inv (h : Inv w) (op : World.Op) : Inv (w.step op) := by
  cases op with
  | enqueue now line => exact enqueue_inv h now line
  | pump answers => exact pump_inv h answers
  | flush now timeoutMs rounds => exact flush_inv h _ rounds

theorem run_inv (h : Inv w) (ops : List World.Op) : Inv (w.run ops) := by
  induction ops generalizing w with
  | nil => exact h
  | cons op ops ih => exact ih (step_inv h op)

end Steps

/-! ## Whole lines -/

/-- what a receiver and the counters can tell -/
structure WholeLines (w : World) : Prop where
  positions : w.sender.head ≤ w.sender.sendPos ∧ w.sender.sendPos ≤ w.sender.tail ∧ w.sender.tail ≤ w.sender.maxBytes
  count : w.sender.lines = (slice w.sender.buffer w.sender.head w.sender.tail).count nl
  start : w.sender.head = 0 ∨ w.sender.buffer[w.sender.head - 1]? = some nl
  /-- each connection took whole lines, and then the start of one -/
  whole : ∀ conn ∈ w.conns, ∃ ls part, conn = joinLines nl ls ++ part ∧ (∀ l ∈ ls, l ∈ w.accepted) ∧
    (part = [] ∨ ∃ l ∈ w.accepted, part <+: l)
  /-- the lines which were sent completely are the first ones, in order -/
  complete : w.conns.flatMap (lines nl) = w.accepted.take w.sender.sent ∧ w.sender.sent ≤ w.accepted.length

theorem Inv.wholeLines {w : World} (h : Inv w) : WholeLines w := by
  have hq := h.queue
  refine ⟨⟨hq.head_send, hq.send_tail, hq.tail_le⟩, ?_, hq.start, fun conn hconn => ?_, h.done, h.sent_le⟩
  · rw [hq.bytes, count_joinLines hq.valid, hq.count]
  · refine ⟨lines nl conn, rest nl conn, (joinLines_lines nl conn).symm, fun l hl => ?_, h.parts conn hconn⟩
    have hmem : l ∈ w.conns.flatMap (lines nl) := List.mem_flatMap.2 ⟨conn, hconn, hl⟩
    rw [h.done] at hmem
    exact List.mem_of_mem_take hmem

/-- **The byte stream stays whole lines.** Whatever the system answers, each connection takes whole accepted lines and
at most the start of one more, and the lines which were sent completely are the first accepted ones, each of them
once. -/
theorem stream_whole_lines (maxLines : ℕ) (buffer : Bytes) (now : ℕ) (ops : List World.Op) :
    WholeLines ((World.ready maxLines buffer now).run ops) :=
  (run_inv (inv_ready maxLines buffer now) ops).wholeLines

end DominoLogForwarder.Domfwd
