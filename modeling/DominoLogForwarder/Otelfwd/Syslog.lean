/-
A datagram of syslog (`otelfwd.cpp`): `ParseSyslogMessage` reads what `<PRI>timestamp hostname tag[pid]: text` was made
of.

`SyslogLine` has the parts, and `SyslogLine.Valid` says what they can be. All but the tag and the text can be missing,
and the parts are told apart by their shape only.

- `parseSyslogMessage_front`: the priority and the time stamp, with anything behind them.
- `parseSyslogMessage_format`: every valid line is read back.
-/
import DominoLogForwarder.Lib.Search
import DominoLogForwarder.Otelfwd.Inputs

namespace DominoLogForwarder.Otelfwd

open FileReader (Bytes ascii decimal isDigit number number_decimal isDigit_of_mem_decimal decimal_ne_nil
  decimal_length_le)

/-! ## What is sent -/

/-- "Mmm dd hh:mm:ss " at the start -/
def HasTimestamp (msg : Bytes) : Prop :=
  16 ≤ msg.length ∧ (msg[0]?.map isAlpha).getD false = true ∧ msg[3]? = some blank ∧ msg[9]? = some 58 ∧
    msg[12]? = some 58 ∧ msg[15]? = some blank

instance (msg : Bytes) : Decidable (HasTimestamp msg) := inferInstanceAs (Decidable (_ ∧ _))

/-- the priority, the time stamp, and the rest -/
def syslogFront (pri : ℕ) (timestamp : Option Bytes) (rest : Bytes) : Bytes :=
  60 :: (decimal pri ++ 62 :: (timestamp.getD [] ++ rest))

/-- a priority of syslog, and a time stamp, or a rest which does not look like one -/
structure ValidFront (pri : ℕ) (timestamp : Option Bytes) (rest : Bytes) : Prop where
  pri : pri ≤ 191
  shape : ∀ ts ∈ timestamp, ts.length = 16 ∧ HasTimestamp ts
  missing : timestamp = none → ¬HasTimestamp rest

structure SyslogLine where
  pri : ℕ
  timestamp : Option Bytes
  hostname : Option Bytes
  tag : Bytes
  pid : Option Bytes
  text : Bytes

namespace SyslogLine

/-- `tag[pid]` -/
def tagWithPid (line : SyslogLine) : Bytes :=
  match line.pid with
  | none => line.tag
  | some pid => line.tag ++ 91 :: (pid ++ [93])

/-- `tag[pid]: text` -/
def tagged (line : SyslogLine) : Bytes := (line.tagWithPid ++ [58]) ++ blank :: line.text

def body (line : SyslogLine) : Bytes :=
  match line.hostname with
  | none => line.tagged
  | some hostname => hostname ++ blank :: line.tagged

def format (line : SyslogLine) : Bytes := syslogFront line.pri line.timestamp line.body

structure Valid (line : SyslogLine) : Prop where
  front : ValidFront line.pri line.timestamp line.body
  hostname : ∀ name ∈ line.hostname, name ≠ [] ∧ blank ∉ name ∧ (name.getLast? = some 58 → name.length = 1)
  tag : line.tag ≠ [] ∧ blank ∉ line.tag ∧ 91 ∉ line.tag ∧ 93 ∉ line.tag
  pid : ∀ pid ∈ line.pid, blank ∉ pid
  text : line.text ≠ [] ∧ line.text.getLast? ≠ some 10 ∧ line.text.getLast? ≠ some 13

end SyslogLine

/-! ## The priority and the time stamp -/

variable {token rest tag text msg ts : Bytes} {pri : ℕ} {timestamp : Option Bytes}

theorem skipTimestamp_of_has (h : HasTimestamp msg) : skipTimestamp msg = msg.drop 16 := if_pos h

theorem skipTimestamp_of_not (h : ¬HasTimestamp msg) : skipTimestamp msg = msg := if_neg h

/-- only the first sixteen bytes are looked at -/
theorem hasTimestamp_append (h : HasTimestamp ts) (rest : Bytes) : HasTimestamp (ts ++ rest) := by
  obtain ⟨hlen, halpha, hthree, hnine, htwelve, hlast⟩ := h
  have hget : ∀ i < 16, (ts ++ rest)[i]? = ts[i]? := fun i hi => List.getElem?_append_left (by omega)
  unfold HasTimestamp
  rw [hget 0 (by decide), hget 3 (by decide), hget 9 (by decide), hget 12 (by decide), hget 15 (by decide),
    List.length_append]
  exact ⟨by omega, halpha, hthree, hnine, htwelve, hlast⟩

theorem skipTimestamp_front (h : ValidFront pri timestamp rest) : skipTimestamp (timestamp.getD [] ++ rest) = rest := by
  cases timestamp with
  | none => exact skipTimestamp_of_not (h.missing rfl)
  | some ts =>
    obtain ⟨hlen, hts⟩ := h.shape ts rfl
    rw [Option.getD_some, skipTimestamp_of_has (hasTimestamp_append hts rest), ← hlen, List.drop_left]

/-- three characters are enough for a priority, and a bracket ends it -/
theorem priority_digits (h : pri ≤ 191) (msg : Bytes) : ((decimal pri ++ 62 :: msg).take 3).takeWhile isDigit =
    decimal pri := by
  have hlen : (decimal pri).length ≤ 3 := decimal_length_le (by decide) (by omega)
  have hend : ((62 :: msg).take (3 - (decimal pri).length)).takeWhile isDigit = [] := by
    cases 3 - (decimal pri).length with
    | zero => rfl
    | succ k => rfl
  rw [List.take_append, List.take_of_length_le hlen,
    List.takeWhile_append_of_pos fun b hb => isDigit_of_mem_decimal hb, hend,
    List.append_nil]

/-- **The priority is read, and the time stamp is skipped.** -/
theorem parseSyslogMessage_front (h : ValidFront pri timestamp rest) (hrest : rest ≠ []) :
    parseSyslogMessage (syslogFront pri timestamp rest) = some (parseTokens pri (stripNewlines rest)) := by
  have hpos := List.length_pos_iff.2 (decimal_ne_nil pri)
  have hrestPos := List.length_pos_iff.2 hrest
  have hbehind : (syslogFront pri timestamp rest).drop (1 + (decimal pri).length) =
    62 :: (timestamp.getD [] ++ rest) := by
    rw [syslogFront, Nat.add_comm, List.drop_succ_cons, List.drop_left]
  have hlen : 4 ≤ (syslogFront pri timestamp rest).length := by
    simp only [syslogFront, List.length_cons, List.length_append]
    omega
  have hdigits : (((syslogFront pri timestamp rest).drop 1).take 3).takeWhile isDigit = decimal pri :=
    priority_digits h.pri _
  unfold parseSyslogMessage
  rw [hdigits]
  dsimp only
  rw [hbehind, number_decimal, List.drop_one, List.tail_cons, skipTimestamp_front h, if_neg, if_neg]
  · rintro (hnil | hbracket | hbig)
    · exact decimal_ne_nil pri hnil
    · exact hbracket rfl
    · exact absurd h.pri (Nat.not_le.2 hbig)
  · rintro (hshort | hhead)
    · omega
    · exact hhead rfl

/-! ## The tokens -/

theorem firstToken_append (h : blank ∉ token) (rest : Bytes) : firstToken (token ++ blank :: rest) = token := by
  rw [firstToken, Search.takeWhile_ne h]

theorem afterToken_append (h : blank ∉ token) (rest : Bytes) : afterToken (token ++ blank :: rest) = rest := by
  rw [afterToken, Search.dropWhile_ne h]
  rfl

theorem stripNewlines_eq_self (hlf : text.getLast? ≠ some 10)
    (hcr : text.getLast? ≠ some 13) : stripNewlines text = text := by
  rw [← List.head?_reverse] at hlf hcr
  have hall : (text.reverse.dropWhile fun b => b = 10 || b = 13) = text.reverse := by
    cases h : text.reverse with
    | nil => rfl
    | cons b bs =>
      rw [h] at hlf hcr
      have hlf : b ≠ 10 := by simpa using hlf
      have hcr : b ≠ 13 := by simpa using hcr
      apply List.dropWhile_cons_of_neg
      simp [hlf, hcr]
  rw [stripNewlines, hall, List.reverse_reverse]

/-- a name without brackets is what remains of `tag[pid]` -/
theorem dropPid_tag (hend : 93 ∉ tag) : dropPid tag = tag := if_neg fun h => hend (List.mem_of_getLast? h)

theorem dropPid_append (hne : tag ≠ []) (hopen : 91 ∉ tag) (pid : Bytes) : dropPid
    (tag ++ 91 :: (pid ++ [93])) = tag := by
  have hlast : (tag ++ 91 :: (pid ++ [93])).getLast? = some 93 := by
    have hjoin : tag ++ 91 :: (pid ++ [93]) = (tag ++ 91 :: pid) ++ [93] := by simp
    rw [hjoin, List.getLast?_concat]
  have hbracket : (tag ++ 91 :: (pid ++ [93])).takeWhile (· ≠ 91) = tag := Search.takeWhile_ne hopen _
  have hpos := List.length_pos_iff.2 hne
  unfold dropPid
  rw [if_pos hlast, hbracket]
  dsimp only
  rw [if_pos ⟨hpos, by simp⟩, List.take_left]

namespace SyslogLine

variable {line : SyslogLine}

theorem dropPid_tagWithPid (h : line.Valid) : dropPid line.tagWithPid = line.tag := by
  unfold tagWithPid
  cases line.pid with
  | none => exact dropPid_tag h.tag.2.2.2
  | some pid => exact dropPid_append h.tag.1 h.tag.2.2.1 pid

theorem blank_notMem_tagWithPid (h : line.Valid) : blank ∉ line.tagWithPid ++ [58] := by
  have htag := h.tag.2.1
  unfold tagWithPid
  cases hpid : line.pid with
  | none =>
    unfold blank at htag
    simp [htag, blank]
  | some pid =>
    have hno := h.pid pid hpid
    unfold blank at htag hno
    simp [htag, hno, blank]

theorem isSyslogTag_tagWithPid (h : line.Valid) : isSyslogTag (line.tagWithPid ++ [58]) = true := by
  have hpos := List.length_pos_iff.2 h.tag.1
  have hlen : 0 < line.tagWithPid.length := by
    unfold tagWithPid
    cases line.pid with
    | none => exact hpos
    | some pid => simp
  unfold isSyslogTag
  rw [List.getLast?_concat, List.length_append, Bool.and_eq_true, decide_eq_true_eq, decide_eq_true_eq]
  exact ⟨Nat.lt_add_of_pos_left hlen, rfl⟩

theorem parseTokens_tagged (h : line.Valid) (pri : ℕ) :
    parseTokens pri line.tagged = { pri := pri, tag := line.tag, text := line.text } := by
  unfold parseTokens tagged
  rw [firstToken_append (blank_notMem_tagWithPid h), afterToken_append (blank_notMem_tagWithPid h)]
  dsimp only
  rw [if_pos (isSyslogTag_tagWithPid h), List.dropLast_concat, dropPid_tagWithPid h]

theorem parseTokens_body (h : line.Valid) (pri : ℕ) : parseTokens pri line.body =
    { pri := pri, hostname := line.hostname.getD [], tag := line.tag, text := line.text } := by
  unfold body
  cases hhostname : line.hostname with
  | none => exact parseTokens_tagged h pri
  | some name =>
    obtain ⟨hne, hblank, hcolon⟩ := h.hostname name hhostname
    have hnoTag : ¬isSyslogTag name = true := by
      unfold isSyslogTag
      simp only [Bool.and_eq_true, decide_eq_true_eq, not_and]
      intro hlong hlast
      have hone := hcolon hlast
      omega
    unfold parseTokens
    dsimp only
    rw [firstToken_append hblank, afterToken_append hblank, if_neg hnoTag]
    unfold tagged
    rw [firstToken_append (blank_notMem_tagWithPid h), afterToken_append (blank_notMem_tagWithPid h),
      if_pos (isSyslogTag_tagWithPid h), List.dropLast_concat, dropPid_tagWithPid h]
    rfl

theorem body_getLast? (h : line.text ≠ []) : line.body.getLast? = line.text.getLast? := by
  have hbehind : ∀ front : Bytes, (front ++ blank :: line.text).getLast? = line.text.getLast? := fun front => by
    rw [List.getLast?_append, List.getLast?_cons, List.getLast?_eq_some_getLast h]
    rfl
  unfold body tagged
  cases line.hostname with
  | none => exact hbehind _
  | some name =>
    have hjoin : name ++ blank :: ((line.tagWithPid ++ [58]) ++ blank :: line.text) =
        (name ++ blank :: (line.tagWithPid ++ [58])) ++ blank :: line.text := by simp
    dsimp only
    rw [hjoin, hbehind]

theorem body_ne_nil (line : SyslogLine) : line.body ≠ [] := by
  unfold body tagged
  cases line.hostname <;> simp

end SyslogLine

/-- **A datagram is read back.** And when neither of the first two tokens is a tag, all of it is the text, without new
lines at its end. -/
theorem parseSyslogMessage_format :
    (∀ line : SyslogLine, line.Valid → parseSyslogMessage line.format =
      some { pri := line.pri, hostname := line.hostname.getD [], tag := line.tag, text := line.text }) ∧
    ∀ pri timestamp rest, ValidFront pri timestamp rest → rest ≠ [] →
      isSyslogTag (firstToken (stripNewlines rest)) = false →
        isSyslogTag (firstToken (afterToken (stripNewlines rest))) = false →
      parseSyslogMessage (syslogFront pri timestamp rest) = some { pri := pri, text := stripNewlines rest } ∧
      (rest.getLast? ≠ some 10 → rest.getLast? ≠ some 13 → stripNewlines rest = rest) := by
  constructor
  · intro line h
    have hlast := SyslogLine.body_getLast? h.text.1
    have hstrip : stripNewlines line.body = line.body :=
      stripNewlines_eq_self (hlast ▸ h.text.2.1) (hlast ▸ h.text.2.2)
    rw [SyslogLine.format, parseSyslogMessage_front h.front line.body_ne_nil, hstrip, SyslogLine.parseTokens_body h]
  · intro pri timestamp rest h hne hfirst hsecond
    refine ⟨?_, stripNewlines_eq_self⟩
    rw [parseSyslogMessage_front h hne]
    unfold parseTokens
    dsimp only
    rw [hfirst, hsecond]
    rfl

/-- a host name of one colon, and a text which looks like another message -/
def trickyLine : SyslogLine where
  pri := 191
  timestamp := some (ascii "Oct 11 22:14:15 ")
  hostname := some (ascii ":")
  tag := ascii "su:"
  pid := some (ascii "1]2")
  text := ascii "<34>Oct 11 22:14:15 host cron[3]: "

theorem trickyLine_valid : trickyLine.Valid where
  front :=
    { pri := le_rfl
      shape := by
        rintro _ ⟨⟩
        decide +kernel
      missing := fun h => nomatch h }
  hostname := by
    rintro _ ⟨⟩
    decide +kernel
  tag := by decide +kernel
  pid := by
    rintro _ ⟨⟩
    decide +kernel
  text := by decide +kernel

theorem parseSyslogMessage_trickyLine : parseSyslogMessage trickyLine.format =
    some { pri := 191, hostname := ascii ":", tag := ascii "su:", text := trickyLine.text } ∧
    parseSyslogMessage (syslogFront 5 none (ascii "no tag here")) = some { pri := 5, text := ascii "no tag here" } := by
  have hfront : ValidFront 5 none (ascii "no tag here") :=
    ⟨by decide, fun _ h => (nomatch h), fun _ => by decide +kernel⟩
  have hstrip : stripNewlines (ascii "no tag here") = ascii "no tag here" := by decide +kernel
  refine ⟨parseSyslogMessage_format.1 trickyLine trickyLine_valid, ?_⟩
  have htext := (parseSyslogMessage_format.2 5 none _ hfront (by decide +kernel) (by decide +kernel)
    (by decide +kernel)).1
  rwa [hstrip] at htext

end DominoLogForwarder.Otelfwd
