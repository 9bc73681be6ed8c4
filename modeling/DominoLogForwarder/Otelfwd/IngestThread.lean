/-
`IngestThread` (`otelfwd.cpp`): one thread serves the connections of a socket input. Each round polls the listener and
the connections, reads once from each connection which is ready, and then accepts new ones.

`Answers` is what the system answers in one round. A connection has a name, the number of its accept, in the place of
its file descriptor: a descriptor is used again, a name is not. `room n`: the queue has room for the `n`-th record which
the input offers. The other threads push and pop between two records, so this can be anything.

`reads` and `parts` are the history: what `recv` returned on which connection, and what the calls of
`IngestProcessBuffer` did for it.
-/
import DominoLogForwarder.Otelfwd.Ingest
import Mathlib.Algebra.BigOperators.Group.Finset.Basic

namespace DominoLogForwarder.Otelfwd

open FileReader (Bytes)

/-- `OTELFWD_MAX_CLIENTS_PER_INPUT` -/
def maxClients : ℕ := 32

/-! ## What the system answers -/

inductive PollResult where
  /-- `EINTR` -/
  | interrupted
  | failed
  | timeout
  | ready
deriving DecidableEq, Repr

inductive RecvResult where
  | data (chunk : Bytes)
  /-- the sender closed the connection -/
  | closed
  /-- `EAGAIN`, `EWOULDBLOCK` or `EINTR` -/
  | again
  | failed
deriving DecidableEq, Repr

def RecvResult.ends : RecvResult → Bool
  | .closed => true
  | .failed => true
  | _ => false

structure Answers where
  poll : PollResult := .timeout
  /-- the connections with an event -/
  ready : ℕ → Bool := fun _ => false
  recv : ℕ → RecvResult := fun _ => .again
  /-- the listener has an event -/
  listen : Bool := false
  /-- how many connections `accept4` returns before it fails -/
  accepts : ℕ := 0

/-! ## The code -/

namespace IngestSource

variable {Record : Type}

/-- what two calls did, one behind the other -/
def add (a b : IngestSource Record) : IngestSource Record where
  invalid := a.invalid + b.invalid
  offered := a.offered ++ b.offered
  handled := a.handled ++ b.handled
  discarded := a.discarded + b.discarded

end IngestSource

/-- an entry of `Clients` -/
structure Connected where
  name : ℕ
  client : IngestClient := {}
deriving DecidableEq, Repr

structure IngestThread (Record : Type) where
  clients : List Connected := []
  /-- the loop has ended because `poll` failed -/
  ended : Bool := false
  connections : ℕ := 0
  rejected : ℕ := 0
  invalid : ℕ := 0
  accepted : ℕ := 0
  dropped : ℕ := 0
  /-- the records which the queue took, with their connection -/
  pushed : List (ℕ × Record) := []
  reads : List (ℕ × RecvResult) := []
  parts : List (ℕ × IngestSource Record) := []

namespace IngestThread

variable {Record : Type} (decode : Bytes → Option Record) (room : ℕ → Bool)

/-- `try_push` and the counters of its answer -/
def offer (name : ℕ) (t : IngestThread Record) (record : Record) : IngestThread Record :=
  if room (t.accepted + t.dropped) then { t with accepted := t.accepted + 1, pushed := t.pushed ++ [(name, record)] }
  else { t with dropped := t.dropped + 1 }

/-- what a call of `IngestProcessBuffer` did: the lines which are invalid are counted, and the records are offered -/
def took (name : ℕ) (part : IngestSource Record) (t : IngestThread Record) : IngestThread Record :=
  part.offered.foldl (offer room name)
    { t with invalid := t.invalid + part.invalid, parts := t.parts ++ [(name, part)] }

/-- a read from the client at the position `i` -/
def readClient (i : ℕ) (client : Connected) (result : RecvResult) (t : IngestThread Record) : IngestThread Record :=
  let t := { t with reads := t.reads ++ [(client.name, result)] }
  match result with
  | .data chunk =>
    let (part, next) := processBuffer decode {} { client.client with buffer := client.client.buffer ++ chunk } false
    { took room client.name part t with clients := t.clients.set i ⟨client.name, next⟩ }
  | .closed =>
    let (part, _) := processBuffer decode {} client.client true
    { took room client.name part t with clients := t.clients.eraseIdx i }
  | .again => t
  | .failed => { t with clients := t.clients.eraseIdx i }

/-- the loop over the clients, backwards. `fds` are the connections of `PollFds` behind the listener -/
def readClients (a : Answers) (fds : List ℕ) : ℕ → IngestThread Record → IngestThread Record
  | 0, t => t
  | i + 1, t =>
    match fds[i]?, t.clients[i]? with
    | some fd, some client =>
      readClients a fds i (if a.ready fd then readClient decode room i client (a.recv client.name) t else t)
    | _, _ => t

/-- the loop of `accept4` -/
def acceptClients : ℕ → IngestThread Record → IngestThread Record
  | 0, t => t
  | more + 1, t =>
    if maxClients ≤ t.clients.length then acceptClients more { t with rejected := t.rejected + 1 }
    else
      acceptClients more { t with clients := t.clients ++ [⟨t.connections, {}⟩], connections := t.connections + 1 }

/-- a round of the loop -/
def round (t : IngestThread Record) (a : Answers) : IngestThread Record :=
  match a.poll with
  | .interrupted => t
  | .failed => { t with ended := true }
  | .timeout => t
  | .ready =>
    let t := readClients decode room a (t.clients.map Connected.name) t.clients.length t
    if a.listen then acceptClients a.accepts t else t

/-- the rounds until the thread ends. At the end the connections are closed as they are -/
def run (rounds : List Answers) : IngestThread Record :=
  rounds.foldl (fun t a => if t.ended then t else round decode room t a) {}

end IngestThread

/-! ## The connections, seen from outside -/

/-- what was received on a connection -/
def chunksOf (reads : List (ℕ × RecvResult)) (name : ℕ) : List Bytes :=
  reads.filterMap fun read =>
    match read with
    | (k, .data chunk) => if k = name then some chunk else none
    | _ => none

/-- the sender closed the connection -/
def closedBy (reads : List (ℕ × RecvResult)) (name : ℕ) : Bool := decide ((name, RecvResult.closed) ∈ reads)

/-- what was done for a connection -/
def partOf {Record : Type} (parts : List (ℕ × IngestSource Record)) (name : ℕ) : IngestSource Record :=
  ((parts.filter fun p => p.1 = name).map Prod.snd).foldl IngestSource.add {}

/-- a server in the abstract: the names of the connections, and what was read from them -/
structure Server where
  connected : List ℕ := []
  ended : Bool := false
  connections : ℕ := 0
  rejected : ℕ := 0
  reads : List (ℕ × RecvResult) := []

namespace Server

/-- every connection which is ready is read once, the ones which end are gone, and new ones come up to the limit -/
def round (s : Server) (a : Answers) : Server :=
  match a.poll with
  | .interrupted => s
  | .failed => { s with ended := true }
  | .timeout => s
  | .ready =>
    let left := s.connected.filter fun k => !(a.ready k && (a.recv k).ends)
    let offered := if a.listen then a.accepts else 0
    let admitted := min offered (maxClients - left.length)
    { s with
      connected := left ++ List.range' s.connections admitted
      connections := s.connections + admitted
      rejected := s.rejected + (offered - admitted)
      reads := s.reads ++ (s.connected.filter a.ready).reverse.map fun k => (k, a.recv k) }

def run (rounds : List Answers) : Server := rounds.foldl (fun s a => if s.ended then s else s.round a) {}

end Server

/-! ## What a call does -/

namespace IngestSource

variable {Record : Type}

theorem add_assoc (a b c : IngestSource Record) : (a.add b).add c = a.add (b.add c) := by
  simp [add, Nat.add_assoc]

theorem add_empty (a : IngestSource Record) : a.add {} = a := by
  simp [add]

end IngestSource

variable {Record : Type} {decode : Bytes → Option Record} {room : ℕ → Bool}

theorem handleLine_add (source : IngestSource Record) (text : Bytes) :
    handleLine decode source text = source.add (handleLine decode {} text) := by
  unfold handleLine IngestSource.add
  by_cases hempty : FileReader.stripCr text = []
  · simp [hempty]
  · cases hd : decode (FileReader.stripCr text) <;> simp [hempty, hd]

theorem handleLines_add (source : IngestSource Record) (client : IngestClient) :
    handleLines decode source client =
      (source.add (handleLines decode {} client).1, (handleLines decode {} client).2) := by
  have hfold : ∀ (ls : List Bytes) (source : IngestSource Record),
      ls.foldl (handleLine decode) source = source.add (ls.foldl (handleLine decode) {}) := by
    intro ls
    induction ls with
    | nil => exact fun source => source.add_empty.symm
    | cons l ls ih =>
      intro source
      calc (l :: ls).foldl (handleLine decode) source
          = (source.add (handleLine decode {} l)).add (ls.foldl (handleLine decode) {}) := by
            rw [List.foldl_cons, ih, handleLine_add]
        _ = source.add ((l :: ls).foldl (handleLine decode) {}) := by
            rw [IngestSource.add_assoc, List.foldl_cons, ih (handleLine decode {} l)]
  rw [handleLines_eq, handleLines_eq]
  split_ifs
  · split
    · rw [IngestSource.add_empty]
    · rw [hfold]
  · rw [hfold]

/-- **A call adds to what is there**, and does the same whatever that is. -/
theorem processBuffer_add (source : IngestSource Record) (client : IngestClient) (eof : Bool) :
    processBuffer decode source client eof =
      (source.add (processBuffer decode {} client eof).1, (processBuffer decode {} client eof).2) := by
  unfold processBuffer
  rw [handleLines_add source]
  generalize handleLines decode {} client = first
  obtain ⟨done, next⟩ := first
  cases eof with
  | true =>
    dsimp only
    rw [if_pos rfl, if_pos rfl]
    unfold finish
    split_ifs
    · rw [handleLine_add (source.add done), handleLine_add done, IngestSource.add_assoc]
    · rfl
  | false =>
    dsimp only
    rw [if_neg Bool.false_ne_true, if_neg Bool.false_ne_true]
    unfold limit
    split_ifs
    · rfl
    · simp [IngestSource.add, Nat.add_assoc]
    · rfl

namespace IngestThread

/-! ## What the queue takes -/

/-- the records which the queue takes, from the `n`-th one on -/
def takenFrom (room : ℕ → Bool) : ℕ → List Record → List Record
  | _, [] => []
  | n, record :: records => if room n then record :: takenFrom room (n + 1) records else takenFrom room (n + 1) records

theorem takenFrom_sublist (room : ℕ → Bool) (n : ℕ) (records : List Record) :
    (takenFrom room n records).Sublist records := by
  induction records generalizing n with
  | nil => exact List.Sublist.refl _
  | cons record records ih =>
    unfold takenFrom
    split_ifs
    · exact (ih _).cons_cons record
    · exact (ih _).cons record

theorem takenFrom_all {n : ℕ} {records : List Record} (h : ∀ m, n ≤ m → m < n + records.length → room m = true) :
    takenFrom room n records = records := by
  induction records generalizing n with
  | nil => rfl
  | cons record records ih =>
    have hlen : (record :: records).length = records.length + 1 := rfl
    unfold takenFrom
    rw [if_pos (h n le_rfl (by omega)), ih fun m hm hlt => h m (by omega) (by omega)]

/-- what a call changes -/
structure Took (room : ℕ → Bool) (name : ℕ) (part : IngestSource Record) (t t' : IngestThread Record) : Prop where
  clients : t'.clients = t.clients
  ended : t'.ended = t.ended
  connections : t'.connections = t.connections
  rejected : t'.rejected = t.rejected
  reads : t'.reads = t.reads
  parts : t'.parts = t.parts ++ [(name, part)]
  invalid : t'.invalid = t.invalid + part.invalid
  counted : t'.accepted + t'.dropped = t.accepted + t.dropped + part.offered.length
  accepted : t'.accepted = t.accepted + (takenFrom room (t.accepted + t.dropped) part.offered).length
  pushed : t'.pushed =
    t.pushed ++ (takenFrom room (t.accepted + t.dropped) part.offered).map fun record => (name, record)

theorem foldl_offer (name : ℕ) (records : List Record) (t : IngestThread Record) :
    records.foldl (offer room name) t =
      { t with
        accepted := t.accepted + (takenFrom room (t.accepted + t.dropped) records).length
        dropped := t.dropped + (records.length - (takenFrom room (t.accepted + t.dropped) records).length)
        pushed := t.pushed ++ (takenFrom room (t.accepted + t.dropped) records).map fun record => (name, record) } := by
  induction records generalizing t with
  | nil => simp [takenFrom]
  | cons record records ih =>
    rw [List.foldl_cons, ih]
    have htaken : takenFrom room (t.accepted + t.dropped) (record :: records) =
        if room (t.accepted + t.dropped) then record :: takenFrom room (t.accepted + t.dropped + 1) records
        else takenFrom room (t.accepted + t.dropped + 1) records := rfl
    have hle := (takenFrom_sublist room (t.accepted + t.dropped + 1) records).length_le
    rw [htaken]
    unfold offer
    by_cases hroom : room (t.accepted + t.dropped) = true
    · have hnext : t.accepted + 1 + t.dropped = t.accepted + t.dropped + 1 := by omega
      simp only [hroom, if_true, hnext, List.length_cons, List.map_cons, List.append_assoc, List.singleton_append,
        Nat.add_sub_add_right, Nat.add_assoc, Nat.add_comm 1]
    · have hnext : t.accepted + (t.dropped + 1) = t.accepted + t.dropped + 1 := rfl
      have hdropped : ∀ n, n ≤ records.length →
          t.dropped + 1 + (records.length - n) = t.dropped + (records.length + 1 - n) := by
        omega
      simp only [hroom, Bool.false_eq_true, if_false, hnext, List.length_cons, hdropped _ hle]

theorem took_spec (room : ℕ → Bool) (name : ℕ) (part : IngestSource Record) (t : IngestThread Record) :
    Took room name part t (took room name part t) := by
  unfold took
  rw [foldl_offer]
  have hle := (takenFrom_sublist room (t.accepted + t.dropped) part.offered).length_le
  refine ⟨rfl, rfl, rfl, rfl, rfl, rfl, rfl, ?_, rfl, rfl⟩
  dsimp only
  omega

/-! ## What is known of the thread -/

theorem chunksOf_concat (reads : List (ℕ × RecvResult)) (name k : ℕ) (result : RecvResult) :
    chunksOf (reads ++ [(name, result)]) k = chunksOf reads k ++
      match result with
      | .data chunk => if name = k then [chunk] else []
      | _ => [] := by
  unfold chunksOf
  rw [List.filterMap_append]
  cases result with
  | data chunk => by_cases h : name = k <;> simp [h]
  | _ => rfl

theorem closedBy_concat (reads : List (ℕ × RecvResult)) (name k : ℕ) (result : RecvResult) :
    closedBy (reads ++ [(name, result)]) k = (closedBy reads k || decide (name = k ∧ result = .closed)) := by
  unfold closedBy
  simp only [List.mem_append, List.mem_singleton, Prod.mk.injEq, Bool.decide_or, eq_comm]

theorem partOf_concat (parts : List (ℕ × IngestSource Record)) (name k : ℕ) (part : IngestSource Record) :
    partOf (parts ++ [(name, part)]) k = if name = k then (partOf parts k).add part else partOf parts k := by
  unfold partOf
  rw [List.filter_append]
  by_cases h : name = k <;> simp [h]

/-- the records of a connection which the queue took -/
def pushedOf (pushed : List (ℕ × Record)) (name : ℕ) : List Record := (pushed.filter fun p => p.1 = name).map Prod.snd

theorem pushedOf_append (pushed : List (ℕ × Record)) (name k : ℕ) (records : List Record) :
    pushedOf (pushed ++ records.map fun record => (name, record)) k =
      pushedOf pushed k ++ if name = k then records else [] := by
  unfold pushedOf
  rw [List.filter_append, List.map_append, List.filter_map]
  by_cases h : name = k
  · simp [Function.comp_def, h]
  · simp [Function.comp_def, h]

/-- the counters, and what the queue took -/
structure Counts (room : ℕ → Bool) (t : IngestThread Record) : Prop where
  invalid : t.invalid = (t.parts.map fun p => p.2.invalid).sum
  counted : t.accepted + t.dropped = (t.parts.map fun p => p.2.offered.length).sum
  accepted : t.pushed.length = t.accepted
  pushed : ∀ k, (pushedOf t.pushed k).Sublist (partOf t.parts k).offered
  all : (∀ n < t.accepted + t.dropped, room n = true) →
    t.dropped = 0 ∧ ∀ k, pushedOf t.pushed k = (partOf t.parts k).offered

variable {t t' : IngestThread Record} {name : ℕ} {part : IngestSource Record}

theorem Counts.same (h : Counts room t) (hparts : t'.parts = t.parts) (hinvalid : t'.invalid = t.invalid)
    (haccepted : t'.accepted = t.accepted) (hdropped : t'.dropped = t.dropped) (hpushed : t'.pushed = t.pushed) :
    Counts room t' := by
  refine ⟨?_, ?_, ?_, ?_, ?_⟩
  · rw [hinvalid, hparts, h.invalid]
  · rw [haccepted, hdropped, hparts, h.counted]
  · rw [hpushed, haccepted, h.accepted]
  · rw [hpushed, hparts]
    exact h.pushed
  · rw [haccepted, hdropped, hpushed, hparts]
    exact h.all

theorem Counts.took (h : Counts room t) (ht : Took room name part t t') : Counts room t' where
  invalid := by
    rw [ht.invalid, ht.parts, h.invalid]
    simp
  counted := by
    rw [ht.counted, ht.parts, h.counted]
    simp
  accepted := by
    rw [ht.pushed, ht.accepted, List.length_append, List.length_map, h.accepted]
  pushed k := by
    rw [ht.pushed, ht.parts, pushedOf_append, partOf_concat]
    split_ifs
    · exact (h.pushed k).append (takenFrom_sublist _ _ _)
    · rw [List.append_nil]
      exact h.pushed k
  all hroom := by
    have hcounted := ht.counted
    have haccepted := ht.accepted
    obtain ⟨hdropped, hall⟩ := h.all fun n hn => hroom n (by omega)
    have htaken : takenFrom room (t.accepted + t.dropped) part.offered = part.offered :=
      takenFrom_all fun n _ hlt => hroom n (by omega)
    rw [htaken] at haccepted
    refine ⟨by omega, fun k => ?_⟩
    rw [ht.pushed, ht.parts, htaken, pushedOf_append, partOf_concat, hall k]
    split_ifs
    · rfl
    · rw [List.append_nil]

/-- a connection is the same as the only one of a server -/
def Alone (decode : Bytes → Option Record) (t : IngestThread Record) (client : Connected) : Prop :=
  closedBy t.reads client.name = false ∧
    (chunksOf t.reads client.name).foldl (receive decode) ({}, {}) = (partOf t.parts client.name, client.client)

/-- what is known of the thread -/
structure Inv (decode : Bytes → Option Record) (room : ℕ → Bool) (t : IngestThread Record) : Prop where
  limit : t.clients.length ≤ maxClients
  nodup : (t.clients.map Connected.name).Nodup
  known : ∀ client ∈ t.clients, client.name < t.connections
  reads : ∀ r ∈ t.reads, r.1 < t.connections
  parts : ∀ p ∈ t.parts, p.1 < t.connections
  isOpen : ∀ client ∈ t.clients, Alone decode t client
  gone : ∀ k, k ∉ t.clients.map Connected.name →
    partOf t.parts k = serve decode (chunksOf t.reads k) (closedBy t.reads k)
  counts : Counts room t

theorem inv_start : Inv decode room ({} : IngestThread Record) where
  limit := Nat.zero_le _
  nodup := List.nodup_nil
  known := fun _ hc => absurd hc List.not_mem_nil
  reads := fun _ hr => absurd hr List.not_mem_nil
  parts := fun _ hp => absurd hp List.not_mem_nil
  isOpen := fun _ hc => absurd hc List.not_mem_nil
  gone := fun _ _ => rfl
  counts := ⟨rfl, rfl, rfl, fun _ => List.Sublist.refl _, fun _ => ⟨rfl, fun _ => rfl⟩⟩

/-! ## A read -/

/-- what a read leaves behind: what was read, and what was done, belongs to the client `name` -/
structure ReadFrom (name : ℕ) (result : RecvResult) (done : List (IngestSource Record)) (t t' : IngestThread Record) :
    Prop where
  connections : t'.connections = t.connections
  reads : t'.reads = t.reads ++ [(name, result)]
  parts : t'.parts = t.parts ++ done.map fun part => (name, part)

theorem ReadFrom.other {result : RecvResult} {done : List (IngestSource Record)} (h : ReadFrom name result done t t')
    {k : ℕ} (hk : name ≠ k) : chunksOf t'.reads k = chunksOf t.reads k ∧ closedBy t'.reads k = closedBy t.reads k ∧
      partOf t'.parts k = partOf t.parts k := by
  rw [h.reads, h.parts, chunksOf_concat, closedBy_concat]
  refine ⟨?_, ?_, ?_⟩
  · cases result <;> simp [hk]
  · simp [hk]
  · unfold partOf
    rw [List.filter_append, List.filter_map]
    simp [Function.comp_def, hk]

/-- the client stays with a new state, or it is gone. The others stay as they are -/
theorem Inv.read (h : Inv decode room t) (new : List Connected) {pre post : List Connected} {client : Connected}
    {result : RecvResult}
    {done : List (IngestSource Record)} (hclients : t.clients = pre ++ client :: post)
    (hread : ReadFrom client.name result done t t') (hclients' : t'.clients = pre ++ (new ++ post))
    (hnew : new = [] ∨ ∃ next, new = [⟨client.name, next⟩]) (hopen : ∀ c ∈ new, Alone decode t' c)
    (hgone : new = [] → partOf t'.parts client.name =
      serve decode (chunksOf t'.reads client.name) (closedBy t'.reads client.name))
    (hcounts : Counts room t') : Inv decode room t' := by
  have hnames : (t'.clients.map Connected.name).Sublist (t.clients.map Connected.name) := by
    rw [hclients, hclients']
    rcases hnew with rfl | ⟨next, rfl⟩
    · simp
    · simp
  have hother : ∀ c, c ∈ pre ∨ c ∈ post → client.name ≠ c.name := by
    have hnodup := h.nodup
    rw [hclients, List.map_append, List.map_cons, List.nodup_middle, List.nodup_cons] at hnodup
    intro c hc heq
    apply hnodup.1
    rw [heq, ← List.map_append]
    exact List.mem_map_of_mem (List.mem_append.2 hc)
  have hold : ∀ c, c ∈ pre ∨ c ∈ post → c ∈ t.clients := by
    intro c hc
    rw [hclients]
    rcases hc with hc | hc
    · exact List.mem_append_left _ hc
    · exact List.mem_append_right _ (List.mem_cons_of_mem _ hc)
  have hself : client ∈ t.clients := by
    rw [hclients]
    exact List.mem_append_right _ List.mem_cons_self
  refine ⟨?_, h.nodup.sublist hnames, ?_, ?_, ?_, ?_, ?_, hcounts⟩
  · have hlen := hnames.length_le
    rw [List.length_map, List.length_map] at hlen
    exact hlen.trans h.limit
  · intro c hc
    obtain ⟨c', hc', hname⟩ := List.mem_map.1 (hnames.subset (List.mem_map_of_mem hc))
    rw [hread.connections, ← hname]
    exact h.known c' hc'
  · intro r hr
    rw [hread.reads] at hr
    rw [hread.connections]
    rcases List.mem_append.1 hr with hr | hr
    · exact h.reads r hr
    · rw [List.mem_singleton.1 hr]
      exact h.known client hself
  · intro p hp
    rw [hread.parts] at hp
    rw [hread.connections]
    rcases List.mem_append.1 hp with hp | hp
    · exact h.parts p hp
    · obtain ⟨part, -, rfl⟩ := List.mem_map.1 hp
      exact h.known client hself
  · intro c hc
    rw [hclients'] at hc
    have hcases : c ∈ new ∨ (c ∈ pre ∨ c ∈ post) := by
      simp only [List.mem_append] at hc
      tauto
    rcases hcases with hc | hc
    · exact hopen c hc
    · obtain ⟨hchunks, hclosed, hpart⟩ := hread.other (hother c hc)
      have halone := h.isOpen c (hold c hc)
      unfold Alone at halone ⊢
      rw [hchunks, hclosed, hpart]
      exact halone
  · intro k hk
    by_cases hkc : client.name = k
    · subst hkc
      rcases hnew with rfl | ⟨next, rfl⟩
      · exact hgone rfl
      · exact absurd (by simp [hclients']) hk
    · obtain ⟨hchunks, hclosed, hpart⟩ := hread.other hkc
      rw [hchunks, hclosed, hpart]
      apply h.gone k
      rw [hclients] at ⊢
      rw [hclients'] at hk
      simp only [List.map_append, List.mem_append, List.map_cons, List.mem_cons] at hk ⊢
      tauto

theorem readClient_inv (h : Inv decode room t) {i : ℕ} {client : Connected} (hi : t.clients[i]? = some client)
    (result : RecvResult) : Inv decode room (readClient decode room i client result t) := by
  obtain ⟨hlt, hget⟩ := List.getElem?_eq_some_iff.1 hi
  have hsplit : t.clients = t.clients.take i ++ client :: t.clients.drop (i + 1) := by
    rw [← hget, List.getElem_cons_drop, List.take_append_drop]
  obtain ⟨hclosed, halone⟩ := h.isOpen client (List.mem_of_getElem? hi)
  have hnoted : Counts room { t with reads := t.reads ++ [(client.name, result)] } :=
    h.counts.same rfl rfl rfl rfl rfl
  cases result with
  | data chunk =>
    cases hcall : processBuffer decode {} { client.client with buffer := client.client.buffer ++ chunk } false with
    | mk part next =>
    have hstep : readClient decode room i client (.data chunk) t =
        { took room client.name part { t with reads := t.reads ++ [(client.name, .data chunk)] } with
          clients := t.clients.set i ⟨client.name, next⟩ } := by
      unfold readClient
      dsimp only
      rw [hcall]
    have htook := took_spec room client.name part { t with reads := t.reads ++ [(client.name, .data chunk)] }
    rw [hstep]
    have hread : ReadFrom client.name (.data chunk) [part] t
        { took room client.name part { t with reads := t.reads ++ [(client.name, .data chunk)] } with
          clients := t.clients.set i ⟨client.name, next⟩ } :=
      ⟨htook.connections, htook.reads, htook.parts⟩
    apply h.read [⟨client.name, next⟩] hsplit hread
    · exact List.set_eq_take_append_cons_drop.trans (if_pos hlt)
    · exact Or.inr ⟨_, rfl⟩
    · intro c hc
      rw [List.mem_singleton.1 hc]
      refine ⟨?_, ?_⟩
      · rw [hread.reads, closedBy_concat, hclosed]
        simp
      · rw [hread.reads, hread.parts, chunksOf_concat]
        dsimp only
        rw [if_pos rfl, List.map_singleton, partOf_concat, if_pos rfl, List.foldl_append, halone, List.foldl_cons,
          List.foldl_nil, receive, processBuffer_add, hcall]
    · exact fun hempty => absurd hempty (List.cons_ne_nil _ _)
    · exact (hnoted.took htook).same rfl rfl rfl rfl rfl
  | closed =>
    cases hcall : processBuffer decode {} client.client true with
    | mk part next =>
    have hstep : readClient decode room i client .closed t =
        { took room client.name part { t with reads := t.reads ++ [(client.name, .closed)] } with
          clients := t.clients.eraseIdx i } := by
      unfold readClient
      dsimp only
      rw [hcall]
    have htook := took_spec room client.name part { t with reads := t.reads ++ [(client.name, .closed)] }
    rw [hstep]
    have hread : ReadFrom client.name .closed [part] t
        { took room client.name part { t with reads := t.reads ++ [(client.name, .closed)] } with
          clients := t.clients.eraseIdx i } :=
      ⟨htook.connections, htook.reads, htook.parts⟩
    apply h.read [] hsplit hread
    · exact List.eraseIdx_eq_take_drop_succ ..
    · exact Or.inl rfl
    · exact fun c hc => absurd hc List.not_mem_nil
    · intro _
      rw [hread.reads, hread.parts, chunksOf_concat, closedBy_concat, List.map_singleton, partOf_concat, if_pos rfl]
      simp [serve, halone, processBuffer_add (partOf t.parts client.name), hcall]
    · exact (hnoted.took htook).same rfl rfl rfl rfl rfl
  | again =>
    have hread : ReadFrom client.name .again [] t (readClient decode room i client .again t) :=
      ⟨rfl, rfl, (List.append_nil _).symm⟩
    apply h.read [client] hsplit hread
    · exact hsplit
    · exact Or.inr ⟨_, rfl⟩
    · intro c hc
      rw [List.mem_singleton.1 hc]
      refine ⟨?_, ?_⟩
      · rw [hread.reads, closedBy_concat, hclosed]
        simp
      · rw [hread.reads, hread.parts, chunksOf_concat]
        simp [halone]
    · exact fun hempty => absurd hempty (List.cons_ne_nil _ _)
    · exact hnoted
  | failed =>
    have hread : ReadFrom client.name .failed [] t (readClient decode room i client .failed t) :=
      ⟨rfl, rfl, (List.append_nil _).symm⟩
    apply h.read [] hsplit hread
    · exact List.eraseIdx_eq_take_drop_succ ..
    · exact Or.inl rfl
    · exact fun c hc => absurd hc List.not_mem_nil
    · intro _
      rw [hread.reads, hread.parts, chunksOf_concat, closedBy_concat, hclosed]
      simp [serve, halone]
    · exact hnoted.same rfl rfl rfl rfl rfl

/-! ## A round -/

theorem readClients_inv (h : Inv decode room t) (a : Answers) (fds : List ℕ) (i : ℕ) :
    Inv decode room (readClients decode room a fds i t) := by
  induction i generalizing t with
  | zero => exact h
  | succ i ih =>
    unfold readClients
    split
    · rename_i fd client _ hclient
      split_ifs
      · exact ih (readClient_inv h hclient _)
      · exact ih h
    · exact h

theorem Inv.accept (h : Inv decode room t) (hroom : t.clients.length < maxClients) : Inv decode room
    { t with clients := t.clients ++ [⟨t.connections, {}⟩], connections := t.connections + 1 } := by
  -- nothing is known of the new name
  have hreads : ∀ r ∈ t.reads, r.1 ≠ t.connections := fun r hr => (h.reads r hr).ne
  have hnew : t.connections ∉ t.clients.map Connected.name := by
    intro hmem
    obtain ⟨c, hc, hname⟩ := List.mem_map.1 hmem
    exact absurd hname (h.known c hc).ne
  have hchunks : chunksOf t.reads t.connections = [] := by
    unfold chunksOf
    rw [List.filterMap_eq_nil_iff]
    intro r hr
    have hne := hreads r hr
    obtain ⟨k, result⟩ := r
    cases result <;> simp_all
  have hclosed : closedBy t.reads t.connections = false := by
    unfold closedBy
    rw [decide_eq_false_iff_not]
    exact fun hmem => hreads _ hmem rfl
  have hpart : partOf t.parts t.connections = {} := by
    unfold partOf
    rw [List.filter_eq_nil_iff.2]
    · rfl
    · intro p hp
      simpa using (h.parts p hp).ne
  refine ⟨?_, ?_, ?_, ?_, ?_, ?_, ?_, h.counts.same rfl rfl rfl rfl rfl⟩
  · rw [List.length_append]
    exact hroom
  · rw [List.map_append, List.map_singleton]
    rw [← List.concat_eq_append]
    exact h.nodup.concat hnew
  · intro c hc
    rcases List.mem_append.1 hc with hc | hc
    · exact (h.known c hc).trans (Nat.lt_succ_self _)
    · rw [List.mem_singleton.1 hc]
      exact Nat.lt_succ_self _
  · exact fun r hr => (h.reads r hr).trans (Nat.lt_succ_self _)
  · exact fun p hp => (h.parts p hp).trans (Nat.lt_succ_self _)
  · intro c hc
    rcases List.mem_append.1 hc with hc | hc
    · exact h.isOpen c hc
    · rw [List.mem_singleton.1 hc]
      refine ⟨hclosed, ?_⟩
      rw [hchunks, hpart]
      rfl
  · intro k hk
    apply h.gone k
    intro hmem
    exact hk (by simpa using Or.inl (List.mem_map.1 hmem))

theorem acceptClients_inv (h : Inv decode room t) (n : ℕ) : Inv decode room (acceptClients n t) := by
  induction n generalizing t with
  | zero => exact h
  | succ n ih =>
    unfold acceptClients
    split_ifs with hfull
    · exact ih ⟨h.limit, h.nodup, h.known, h.reads, h.parts, h.isOpen, h.gone, h.counts.same rfl rfl rfl rfl rfl⟩
    · exact ih (h.accept (Nat.lt_of_not_le hfull))

theorem round_inv (h : Inv decode room t) (a : Answers) : Inv decode room (round decode room t a) := by
  unfold round
  cases a.poll with
  | interrupted => exact h
  | failed => exact ⟨h.limit, h.nodup, h.known, h.reads, h.parts, h.isOpen, h.gone, h.counts.same rfl rfl rfl rfl rfl⟩
  | timeout => exact h
  | ready =>
    have hread := readClients_inv h a (t.clients.map Connected.name) t.clients.length
    dsimp only
    split_ifs
    · exact acceptClients_inv hread _
    · exact hread

theorem run_inv (decode : Bytes → Option Record) (room : ℕ → Bool) (rounds : List Answers) :
    Inv decode room (run decode room rounds) := by
  unfold run
  induction rounds using List.reverseRecOn with
  | nil => exact inv_start
  | append_singleton rounds a ih =>
    rw [List.foldl_append, List.foldl_cons, List.foldl_nil]
    split_ifs
    · exact ih
    · exact round_inv ih a

/-! ## The abstract server -/

def server (t : IngestThread Record) : Server where
  connected := t.clients.map Connected.name
  ended := t.ended
  connections := t.connections
  rejected := t.rejected
  reads := t.reads

theorem readClient_server {i : ℕ} {client : Connected} (hi : t.clients[i]? = some client) (result : RecvResult) :
    (readClient decode room i client result t).server =
      { t.server with
        connected := if result.ends then t.server.connected.eraseIdx i else t.server.connected
        reads := t.reads ++ [(client.name, result)] } := by
  obtain ⟨hlt, hget⟩ := List.getElem?_eq_some_iff.1 hi
  cases result with
  | data chunk =>
    have htook := took_spec room client.name
      (processBuffer decode {} { client.client with buffer := client.client.buffer ++ chunk } false).1
      { t with reads := t.reads ++ [(client.name, .data chunk)] }
    have hsame : (t.clients.map Connected.name).set i client.name = t.clients.map Connected.name := by
      refine List.ext_getElem? fun j => ?_
      by_cases hj : i = j
      · rw [← hj, List.getElem?_set_self (by rw [List.length_map]; exact hlt), List.getElem?_map, hi]
        rfl
      · rw [List.getElem?_set_ne hj]
    simp only [server, readClient, RecvResult.ends, htook.ended, htook.connections, htook.rejected, htook.reads,
      List.map_set, hsame, Bool.false_eq_true, if_false]
  | closed =>
    have htook := took_spec room client.name (processBuffer decode {} client.client true).1
      { t with reads := t.reads ++ [(client.name, .closed)] }
    simp only [server, readClient, RecvResult.ends, htook.ended, htook.connections, htook.rejected, htook.reads,
      List.eraseIdx_map, if_true]
  | again => rfl
  | failed => simp [server, readClient, RecvResult.ends, List.eraseIdx_map]

/-- **The loop over the clients**: backwards, so a client which is removed shifts only those which were read already. -/
theorem readClients_server (a : Answers) (front tail post : List ℕ) (h : t.server.connected = front ++ post) :
    (readClients decode room a (front ++ tail) front.length t).server =
      { t.server with
        connected := (front.filter fun k => !(a.ready k && (a.recv k).ends)) ++ post
        reads := t.reads ++ (front.filter a.ready).reverse.map fun k => (k, a.recv k) } := by
  induction front using List.reverseRecOn generalizing t tail post with
  | nil =>
    rw [List.nil_append] at h
    simp [readClients, ← h, server]
  | append_singleton front k ih =>
    have hfd : (front ++ [k] ++ tail)[front.length]? = some k := by simp
    have hname : (t.clients.map Connected.name)[front.length]? = some k := by
      change t.server.connected[front.length]? = some k
      rw [h]
      simp
    rw [List.getElem?_map, Option.map_eq_some_iff] at hname
    obtain ⟨client, hclient, rfl⟩ := hname
    have hlen : (front ++ [client.name]).length = front.length + 1 := by simp
    rw [hlen, readClients, hfd, hclient]
    dsimp only
    rw [List.append_assoc front] at h ⊢
    rw [List.filter_append, List.filter_append]
    by_cases hready : a.ready client.name = true
    · rw [if_pos hready]
      have hstep := @readClient_server _ decode room _ _ _ hclient (a.recv client.name)
      generalize readClient decode room front.length client (a.recv client.name) t = next at hstep ⊢
      have herase : t.server.connected.eraseIdx front.length = front ++ post := by
        rw [h, List.eraseIdx_append_of_length_le le_rfl, Nat.sub_self]
        rfl
      have hreads : next.reads = t.reads ++ [(client.name, a.recv client.name)] := congrArg Server.reads hstep
      cases hends : (a.recv client.name).ends with
      | true =>
        rw [hends, if_pos rfl, herase] at hstep
        rw [ih ([client.name] ++ tail) post (congrArg Server.connected hstep), hstep, hreads]
        simp [hready, hends]
      | false =>
        rw [hends, if_neg Bool.false_ne_true, h] at hstep
        rw [ih ([client.name] ++ tail) ([client.name] ++ post) (congrArg Server.connected hstep), hstep, hreads]
        simp [hready, hends]
    · rw [if_neg hready, ih ([client.name] ++ tail) ([client.name] ++ post) h]
      simp [hready]

theorem acceptClients_server (n : ℕ) (h : t.clients.length ≤ maxClients) :
    (acceptClients n t).server =
      { t.server with
        connected := t.server.connected ++ List.range' t.connections (min n (maxClients - t.clients.length))
        connections := t.connections + min n (maxClients - t.clients.length)
        rejected := t.rejected + (n - min n (maxClients - t.clients.length)) } := by
  induction n generalizing t with
  | zero => simp [acceptClients, server]
  | succ n ih =>
    unfold acceptClients
    by_cases hfull : maxClients ≤ t.clients.length
    · have hroom : maxClients - t.clients.length = 0 := Nat.sub_eq_zero_of_le hfull
      rw [if_pos hfull, ih (t := { t with rejected := t.rejected + 1 }) h]
      simp [server, hroom, Nat.add_assoc, Nat.add_comm 1]
    · have hlt : t.clients.length < maxClients := Nat.lt_of_not_le hfull
      obtain ⟨left, hleft⟩ : ∃ left, maxClients - t.clients.length = left + 1 :=
        ⟨maxClients - t.clients.length - 1, by omega⟩
      have hnext : maxClients - (t.clients.length + 1) = left := by omega
      rw [if_neg hfull, ih (by simpa using hlt)]
      simp only [server, List.length_append, List.length_singleton, hnext, hleft, List.map_append, List.map_singleton,
        List.append_assoc, List.singleton_append, Nat.add_min_add_right, List.range'_succ]
      congr 1
      · omega
      · omega

theorem round_server (h : Inv decode room t) (a : Answers) :
    (round decode room t a).server = t.server.round a := by
  unfold round Server.round
  cases a.poll with
  | interrupted => rfl
  | failed => rfl
  | timeout => rfl
  | ready =>
    have hread := readClients_inv h a (t.clients.map Connected.name) t.clients.length
    have hserver := @readClients_server _ decode room t a (t.clients.map Connected.name) [] [] (List.append_nil _).symm
    rw [List.append_nil, List.append_nil, List.length_map] at hserver
    generalize readClients decode room a (t.clients.map Connected.name) t.clients.length t = next at hread hserver ⊢
    have hlen : next.clients.length =
        (t.server.connected.filter fun k => !(a.ready k && (a.recv k).ends)).length := by
      have hnames := congrArg (fun s => s.connected.length) hserver
      simpa [server] using hnames
    have hconn : next.connections = t.connections := congrArg Server.connections hserver
    have hrej : next.rejected = t.rejected := congrArg Server.rejected hserver
    dsimp only
    by_cases hlisten : a.listen = true
    · rw [if_pos hlisten, if_pos hlisten, acceptClients_server _ hread.limit, hserver, hlen, hconn, hrej]
      rfl
    · rw [if_neg hlisten, if_neg hlisten, hserver]
      simp [server]

theorem run_server (decode : Bytes → Option Record) (room : ℕ → Bool) (rounds : List Answers) :
    (run decode room rounds).server = Server.run rounds := by
  induction rounds using List.reverseRecOn with
  | nil => rfl
  | append_singleton rounds a ih =>
    have hrun : run decode room (rounds ++ [a]) =
        if (run decode room rounds).ended then run decode room rounds
        else round decode room (run decode room rounds) a := by
      unfold run
      rw [List.foldl_append]
      rfl
    have hserver : Server.run (rounds ++ [a]) =
        if (Server.run rounds).ended then Server.run rounds else (Server.run rounds).round a := by
      unfold Server.run
      rw [List.foldl_append]
      rfl
    rw [hrun, hserver, ← ih]
    have hended : (run decode room rounds).server.ended = (run decode room rounds).ended := rfl
    rw [hended]
    split_ifs
    · rfl
    · exact round_server (run_inv decode room rounds) a

/-! ## The connections -/

/-- a number of the parts, for all of them and for each connection -/
theorem sum_partOf (f : IngestSource Record → ℕ) (hempty : f {} = 0) (hadd : ∀ a b, f (a.add b) = f a + f b)
    {parts : List (ℕ × IngestSource Record)} {n : ℕ} (h : ∀ p ∈ parts, p.1 < n) :
    (parts.map fun p => f p.2).sum = ∑ k ∈ Finset.range n, f (partOf parts k) := by
  induction parts using List.reverseRecOn with
  | nil =>
    have hzero : ∀ k, f (partOf [] k) = 0 := fun _ => hempty
    simp [hzero]
  | append_singleton parts p ih =>
    obtain ⟨name, part⟩ := p
    have hname : name < n := h (name, part) (List.mem_append_right _ List.mem_cons_self)
    have hone : ∀ k, f (partOf (parts ++ [(name, part)]) k) = f (partOf parts k) + if name = k then f part else 0 := by
      intro k
      rw [partOf_concat]
      split_ifs
      · exact hadd _ _
      · rfl
    calc ((parts ++ [(name, part)]).map fun p => f p.2).sum
        = (parts.map fun p => f p.2).sum + f part := by simp
      _ = (∑ k ∈ Finset.range n, f (partOf parts k)) + ∑ k ∈ Finset.range n, if name = k then f part else 0 := by
        rw [ih fun p hp => h p (List.mem_append_left _ hp), Finset.sum_ite_eq, if_pos (Finset.mem_range.2 hname)]
      _ = ∑ k ∈ Finset.range n, f (partOf (parts ++ [(name, part)]) k) := by
        rw [← Finset.sum_add_distrib]
        exact Finset.sum_congr rfl fun k _ => (hone k).symm

/-- a connection of its own, which receives what this connection has received -/
def alone (decode : Bytes → Option Record) (t : IngestThread Record) (k : ℕ) : IngestSource Record :=
  serve decode (chunksOf t.reads k) (closedBy t.reads k)

/-- each connection is served as if it were the only one -/
structure Isolated (decode : Bytes → Option Record) (room : ℕ → Bool) (t : IngestThread Record) : Prop where
  limit : t.clients.length ≤ maxClients
  invalid : t.invalid = ∑ k ∈ Finset.range t.connections, (alone decode t k).invalid
  offered : t.accepted + t.dropped = ∑ k ∈ Finset.range t.connections, (alone decode t k).offered.length
  accepted : t.accepted = t.pushed.length
  /-- the queue gets the records of a connection in their order -/
  pushed : ∀ k, (pushedOf t.pushed k).Sublist (alone decode t k).offered
  /-- with room in the queue it gets all of them -/
  all : (∀ n, room n = true) → t.dropped = 0 ∧ ∀ k, pushedOf t.pushed k = (alone decode t k).offered

theorem Inv.part_eq (h : Inv decode room t) (k : ℕ) : partOf t.parts k = alone decode t k := by
  by_cases hk : k ∈ t.clients.map Connected.name
  · obtain ⟨client, hclient, rfl⟩ := List.mem_map.1 hk
    obtain ⟨hclosed, hchunks⟩ := h.isOpen client hclient
    unfold alone serve
    rw [hclosed, hchunks]
    rfl
  · exact h.gone k hk

theorem isolated_run (decode : Bytes → Option Record) (room : ℕ → Bool) (rounds : List Answers) :
    Isolated decode room (run decode room rounds) := by
  have h := run_inv decode room rounds
  generalize run decode room rounds = t at h
  refine ⟨h.limit, ?_, ?_, h.counts.accepted.symm, ?_, ?_⟩
  · calc t.invalid = ∑ k ∈ Finset.range t.connections, (partOf t.parts k).invalid := by
          rw [h.counts.invalid, sum_partOf (fun part => part.invalid) rfl (fun _ _ => rfl) h.parts]
      _ = _ := Finset.sum_congr rfl fun k _ => by rw [h.part_eq]
  · calc t.accepted + t.dropped = ∑ k ∈ Finset.range t.connections, (partOf t.parts k).offered.length := by
          rw [h.counts.counted,
            sum_partOf (fun part => part.offered.length) rfl (fun _ _ => List.length_append) h.parts]
      _ = _ := Finset.sum_congr rfl fun k _ => by rw [h.part_eq]
  · intro k
    rw [← h.part_eq]
    exact h.counts.pushed k
  · intro hroom
    obtain ⟨hdropped, hall⟩ := h.counts.all fun n _ => hroom n
    exact ⟨hdropped, fun k => (hall k).trans (by rw [h.part_eq])⟩

/-- **The connections do not touch each other**: whatever the system answers, each of them is served as if it were the
only one. The server is the abstract one, which reads from each connection with an event once in a round. -/
theorem ingest_thread_isolates (decode : Bytes → Option Record) (room : ℕ → Bool) (rounds : List Answers) :
    (run decode room rounds).server = Server.run rounds ∧ Isolated decode room (run decode room rounds) :=
  ⟨run_server decode room rounds, isolated_run decode room rounds⟩

end IngestThread

end DominoLogForwarder.Otelfwd
