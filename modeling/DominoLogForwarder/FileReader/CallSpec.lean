/-
The environment in which files only grow, and the rules of the system calls of a `FileReader` there.

`P` says what the path may lead to. As long as the other programs only append and the path stays within `P` (`Calm`),
every file is the start of what it is later (`Later`). The rules have one premise for each outcome; an outcome which
needs a failure says which.
-/
import DominoLogForwarder.FileReader.Environ

namespace DominoLogForwarder.FileReader

open CrashProg Lines FrM
open Wal (File)

/-! ## What the others do -/

def Change.Mild (P : Option Node → Prop) : Change → Prop
  | .append _ _ => True
  | .rewrite _ _ => False
  | .path node => P node

structure Calm (P : Option Node → Prop) (d : Disk) (k : Kernel) : Prop where
  others : ∀ changes ∈ k.others, ∀ ch ∈ changes, ch.Mild P
  path : P d.path

/-- the files when the others have done everything which is announced -/
def Kernel.final (k : Kernel) (files : FileId → File) : FileId → File :=
  (Disk.applyAll { path := none, files := files } k.others.flatten).files

/-- `d'` and `k'` are what is left of `d` and `k` after some calls -/
structure Later (P : Option Node → Prop) (d : Disk) (k : Kernel) (d' : Disk) (k' : Kernel) : Prop where
  files : ∀ id, (d.files id).bytes <+: (d'.files id).bytes
  calm : Calm P d' k'
  calls : ∀ c, k'.oracle c <:+ k.oracle c
  alive : k.crashIn = none → k'.crashIn = none
  final : k'.final d'.files = k.final d.files

variable {P : Option Node → Prop}

theorem Later.refl {d : Disk} {k : Kernel} (h : Calm P d k) : Later P d k d k :=
  ⟨fun _ => List.prefix_refl _, h, fun _ => List.suffix_refl _, id, rfl⟩

theorem Later.trans {d d' d'' : Disk} {k k' k'' : Kernel} (h : Later P d k d' k') (h' : Later P d' k' d'' k'') :
    Later P d k d'' k'' :=
  ⟨fun id => (h.files id).trans (h'.files id), h'.calm, fun c => (h'.calls c).trans (h.calls c),
    fun ha => h'.alive (h.alive ha), h'.final.trans h.final⟩

/-- the reader writes its own files -/
theorem Later.setState {d d' : Disk} {k k' : Kernel} (h : Later P d k d' k') (state temp : Option Bytes) :
    Later P d k { d' with state := state, temp := temp } k' :=
  ⟨h.files, ⟨h.calm.others, h.calm.path⟩, h.calls, h.alive, h.final⟩

namespace Disk

theorem files_applyAll_congr (changes : List Change) {d d' : Disk} (h : d.files = d'.files) :
    (d.applyAll changes).files = (d'.applyAll changes).files := by
  induction changes generalizing d d' with
  | nil => exact h
  | cons ch changes ih =>
    apply ih
    cases ch with
    | append id bytes => simp only [apply, setFile, h]
    | rewrite id content => simp only [apply, setFile, h]
    | path node => exact h

theorem apply_grows {ch : Change} (hmild : ch.Mild P) (d : Disk) (id : FileId) :
    (d.files id).bytes <+: ((d.apply ch).files id).bytes := by
  cases ch with
  | path node => exact List.prefix_refl _
  | rewrite id' content => exact hmild.elim
  | append id' bytes =>
    by_cases hid : id = id'
    · subst hid
      simp only [apply, setFile, Function.update_self]
      cases happ : (d.files id).append? bytes with
      | none => exact List.prefix_refl _
      | some f =>
        rw [Option.getD_some, File.append?_eq happ]
        exact List.prefix_append _ _
    · simp only [apply, setFile, Function.update_of_ne hid]
      exact List.prefix_refl _

theorem applyAll_grows {changes : List Change} (hmild : ∀ ch ∈ changes, ch.Mild P) (d : Disk) (id : FileId) :
    (d.files id).bytes <+: ((d.applyAll changes).files id).bytes := by
  induction changes generalizing d with
  | nil => exact List.prefix_refl _
  | cons ch changes ih =>
    obtain ⟨hch, hrest⟩ := List.forall_mem_cons.1 hmild
    exact (apply_grows hch d id).trans (ih hrest _)

theorem applyAll_path {changes : List Change} (hmild : ∀ ch ∈ changes, ch.Mild P) {d : Disk} (hd : P d.path) :
    P (d.applyAll changes).path := by
  induction changes generalizing d with
  | nil => exact hd
  | cons ch changes ih =>
    obtain ⟨hch, hrest⟩ := List.forall_mem_cons.1 hmild
    apply ih hrest
    cases ch with
    | append id bytes => exact hd
    | rewrite id content => exact hch.elim
    | path node => exact hch

end Disk

theorem Calm.head {d : Disk} {k : Kernel} (h : Calm P d k) : ∀ ch ∈ k.others.headD [], ch.Mild P := by
  cases ho : k.others with
  | nil => simp
  | cons changes rest => exact h.others changes (by rw [ho]; exact List.mem_cons_self)

/-- no file is larger than it will be -/
theorem Calm.size_le {d : Disk} {k : Kernel} (h : Calm P d k) (id : FileId) :
    (d.files id).bytes <+: (k.final d.files id).bytes := by
  have hmild : ∀ ch ∈ k.others.flatten, ch.Mild P := by
    intro ch hch
    obtain ⟨changes, hmem, hch⟩ := List.mem_flatten.1 hch
    exact h.others changes hmem ch hch
  exact Disk.applyAll_grows hmild { path := none, files := d.files } id

/-- what the others do between two calls -/
theorem later_others {changes : List Change} {d : Disk} (hmild : ∀ ch ∈ changes, ch.Mild P) (hpath : P d.path) :
    Later P d { others := [changes] } (d.applyAll changes) {} := by
  refine ⟨Disk.applyAll_grows hmild d, ⟨fun _ h => absurd h List.not_mem_nil, Disk.applyAll_path hmild hpath⟩,
    fun _ => List.suffix_refl _, id, ?_⟩
  unfold Kernel.final
  rw [List.flatten_cons, List.flatten_nil, List.append_nil]
  exact Disk.files_applyAll_congr changes rfl

/-- no call fails and the process is not killed -/
structure Kernel.Quiet (k : Kernel) : Prop where
  calls : ∀ c code, Fault.fail code ∉ k.oracle c
  alive : k.crashIn = none

theorem Kernel.Quiet.reliable {k : Kernel} (h : k.Quiet) : k.Reliable := fun c _ => h.calls c

theorem Later.reliable {d d' : Disk} {k k' : Kernel} (h : Later P d k d' k') (hr : k.Reliable) : k'.Reliable :=
  hr.mono h.calls

theorem Later.quiet {d d' : Disk} {k k' : Kernel} (h : Later P d k d' k') (hq : k.Quiet) : k'.Quiet :=
  ⟨fun c code hin => hq.calls c code ((h.calls c).subset hin), h.alive hq.alive⟩

/-- among others which only append, the files are later ones -/
theorem Passed.later {d d' : Disk} {k k' : Kernel} (h : Passed d k d' k') (hcalm : Calm P d k) : Later P d k d' k' := by
  obtain ⟨rfl, hothers, hcalls, halive⟩ := h
  refine ⟨Disk.applyAll_grows hcalm.head d, ⟨?_, Disk.applyAll_path hcalm.head hcalm.path⟩, hcalls, halive, ?_⟩
  · rw [hothers]
    exact fun changes hmem => hcalm.others changes (List.mem_of_mem_tail hmem)
  · unfold Kernel.final
    rw [hothers]
    cases ho : k.others with
    | nil => rfl
    | cons changes rest =>
      have hsplit : Disk.applyAll { path := none, files := d.files } (changes ++ rest.flatten) =
          (Disk.applyAll { path := none, files := d.files } changes).applyAll rest.flatten := List.foldl_append
      rw [List.headD_cons, List.tail_cons, List.flatten_cons, hsplit]
      exact Disk.files_applyAll_congr _ (Disk.files_applyAll_congr _ rfl)

/-- other programs append to files, the path stays within `P`, and the process can be killed if `killable` -/
def appending (P : Option Node → Prop) (killable : Prop) : Env where
  Goes d k d' k' := Later P d k d' k' ∧ (k'.crashIn ≠ none → killable)
  Killable := killable
  trans h h' := ⟨h.1.trans h'.1, h'.2⟩
  right h := ⟨.refl h.1.calm, h.2⟩
  setState state temp h := ⟨h.1.setState state temp, h.2⟩
  calls h := h.1.calls
  syscall hs hc h := wp_syscall_passed
    (fun f d k hp hf => h f d k ⟨hp.later hs.1.calm, fun hcr => hs.2 fun h0 => hcr (hp.alive h0)⟩ hp.untouched hf)
    fun hcr => hc (hs.2 hcr)

theorem appending_ready {s : Sys} (hcalm : Calm P s.disk s.kern) : (appending P (s.kern.crashIn ≠ none)).Ready s :=
  ⟨.refl hcalm, id⟩

/-! ## System calls -/

section Calls

variable {C : Sys → Prop} {s : Sys} {c : Call}

theorem wp_openPath {Q : Except ℕ Node → Sys → Prop} (hcalm : Calm P s.disk s.kern)
    (h : ∀ node d k, Later P s.disk s.kern d k → d.state = s.disk.state → P (some node) →
      Q (.ok node) ⟨d, s.reader, s.log, k⟩)
    (hfail : ∀ code d k, (Fault.fail code ∈ s.kern.oracle .openPath ∨ P none) → Later P s.disk s.kern d k →
      d.state = s.disk.state → Q (.error code) ⟨d, s.reader, s.log, k⟩)
    (hc : s.kern.crashIn ≠ none → C s) : wp openPath Q C s := by
  refine Env.openPath (appending_ready hcalm) hc (fun node d k hgo hst hpath => ?_) fun code d k hgo hst hwhy => ?_
  · exact h node d k hgo.1 hst (hpath ▸ hgo.1.calm.path)
  · exact hfail code d k (hwhy.imp_right fun hnone => by simpa only [hnone] using hgo.1.calm.path) hgo.1 hst

theorem wp_fstat {Q : Except ℕ ℕ → Sys → Prop} {id : FileId} (hcalm : Calm P s.disk s.kern)
    (h : ∀ d k, Later P s.disk s.kern d k → d.state = s.disk.state →
      Q (.ok (d.files id).size) ⟨d, s.reader, s.log, k⟩)
    (hfail : ∀ code d k, Fault.fail code ∈ s.kern.oracle c → Later P s.disk s.kern d k → d.state = s.disk.state →
      Q (.error code) ⟨d, s.reader, s.log, k⟩)
    (hc : s.kern.crashIn ≠ none → C s) : wp (fstat c id) Q C s :=
  Env.fstat (appending_ready hcalm) hc (fun d k hgo hst => h d k hgo.1 hst)
    fun code d k hgo hst hf => hfail code d k hf hgo.1 hst

theorem wp_statPath {Q : Option Node → Sys → Prop} (hcalm : Calm P s.disk s.kern)
    (h : ∀ node d k, Later P s.disk s.kern d k → d.state = s.disk.state → (∀ n, node = some n → P node) →
      Q node ⟨d, s.reader, s.log, k⟩)
    (hc : s.kern.crashIn ≠ none → C s) : wp statPath Q C s := by
  refine Env.statPath (appending_ready hcalm) hc fun node d k hgo hst hnode => h node d k hgo.1 hst fun n hn => ?_
  rcases hnode with rfl | rfl
  · cases hn
  · exact hgo.1.calm.path

/-- every read but the one of a chunk returns all there is -/
theorem wp_readAt {Q : Except ℕ Bytes → Sys → Prop} {id : FileId} {len offset : ℕ} (hcalm : Calm P s.disk s.kern)
    (hcall : c ≠ .preadFill)
    (h : ∀ d k, Later P s.disk s.kern d k → d.state = s.disk.state →
      Q (.ok (((d.files id).bytes.drop offset).take len)) ⟨d, s.reader, s.log, k⟩)
    (hfail : ∀ code d k, Fault.fail code ∈ s.kern.oracle c → Later P s.disk s.kern d k → d.state = s.disk.state →
      Q (.error code) ⟨d, s.reader, s.log, k⟩)
    (hc : s.kern.crashIn ≠ none → C s) : wp (readAt c id len offset) Q C s :=
  Env.readAt (appending_ready hcalm) hc hcall (fun d k hgo hst => h d k hgo.1 hst)
    fun code d k hgo hst hf => hfail code d k hf hgo.1 hst

/-- a chunk is empty only at the end of the file -/
theorem wp_readChunk {Q : Except ℕ Bytes → Sys → Prop} {id : FileId} {offset : ℕ} (hcalm : Calm P s.disk s.kern)
    (h : ∀ chunk d k, Later P s.disk s.kern d k → d.state = s.disk.state → chunk <+: (d.files id).bytes.drop offset →
      (chunk = [] → (d.files id).bytes.drop offset = []) → Q (.ok chunk) ⟨d, s.reader, s.log, k⟩)
    (hfail : ∀ code d k, Fault.fail code ∈ s.kern.oracle .preadFill → Later P s.disk s.kern d k →
      d.state = s.disk.state → Q (.error code) ⟨d, s.reader, s.log, k⟩)
    (hc : s.kern.crashIn ≠ none → C s) : wp (readAt .preadFill id chunkSize offset) Q C s :=
  Env.readChunk (appending_ready hcalm) hc (fun chunk d k hgo hst hchunk hempty => h chunk d k hgo.1 hst hchunk hempty)
    fun code d k hgo hst hf => hfail code d k hf hgo.1 hst

end Calls

/-! ## The state file -/

section State

variable {C : Sys → Prop} {s : Sys}

/-- the state file is the old one until it is the new one -/
theorem wp_saveState {Q : Bool → Sys → Prop} (hcalm : Calm P s.disk s.kern) (hrel : s.kern.Reliable)
    (h : ∀ d k, Later P s.disk s.kern d k → d.state = some (stateText s.reader.saved) →
      Q true ⟨d, { s.reader with saveFailed := false }, s.log, k⟩)
    (hc : ∀ d k, s.kern.crashIn ≠ none → Later P s.disk s.kern d k → d.state = s.disk.state →
      C ⟨d, s.reader, s.log, k⟩) : wp saveState Q C s := by
  refine Env.saveState (appending_ready hcalm) (fun hcr d k hgo hst => hc d k hcr hgo.1 hst) ?_
  intro b failed d k l hgo hsaves
  obtain rfl := hsaves.sure hrel
  obtain ⟨rfl, rfl, hst⟩ := hsaves.done rfl
  exact h d k hgo.1 hst

/-- the state file says where to continue in the file `id`, and the start of the file is the one it knows -/
structure SavedAt (d : Disk) (id : FileId) (o : ℕ) : Prop where
  saved : ∃ saved : SavedState, d.state = some (stateText saved) ∧ saved.Fits ∧ saved.device = id.device.toNat ∧
    saved.inode = id.inode.toNat ∧ saved.offset = o ∧ saved.headLen ≤ (d.files id).size ∧
    saved.headHash = (hashBytes ((d.files id).bytes.take saved.headLen)).toNat
  le_size : o ≤ (d.files id).size

theorem SavedAt.mono {d d' : Disk} {k k' : Kernel} {id : FileId} {o : ℕ} (h : SavedAt d id o)
    (hl : Later P d k d' k') (hs : d'.state = d.state) : SavedAt d' id o := by
  obtain ⟨⟨saved, hstate, hfits, hdev, hino, hoff, hlen, hhash⟩, hle⟩ := h
  have hsize := (hl.files id).length_le
  refine ⟨⟨saved, hs.trans hstate, hfits, hdev, hino, hoff, hlen.trans hsize, ?_⟩, hle.trans hsize⟩
  obtain ⟨x, hx⟩ := hl.files id
  rw [hhash, ← hx, List.take_append_of_le_length hlen]

theorem stateText_length_le {saved : SavedState} (h : saved.Fits) : (stateText saved).length ≤ stateMax := by
  have hlen : saved.headLen < 2 ^ 64 := lt_of_le_of_lt h.headLen (by decide)
  have hv : (stateLine "version" stateVersion).length = 9 := by decide
  have hname : ∀ (name : String) {n : ℕ}, n < 2 ^ 64 → (stateLine name n).length ≤ (ascii name).length + 21 := by
    intro name n hn
    have hdigits : (decimal n).length ≤ 20 := decimal_length_le (by decide) (hn.trans (by decide))
    rw [stateLine, List.length_append, List.length_cons]
    omega
  have h1 := hname "device" h.device
  have h2 := hname "inode" h.inode
  have h3 := hname "offset" h.offset
  have h4 := hname "headlen" hlen
  have h5 := hname "headhash" h.headHash
  have e1 : (ascii "device").length = 6 := by decide
  have e2 : (ascii "inode").length = 5 := by decide
  have e3 : (ascii "offset").length = 6 := by decide
  have e4 : (ascii "headlen").length = 7 := by decide
  have e5 : (ascii "headhash").length = 8 := by decide
  simp only [stateText, stateLines, joinLines_cons, joinLines_nil, List.length_append, List.length_cons,
    List.length_nil,
    stateMax]
  omega

/-- the state file is not there, or it is one which `SaveState` wrote -/
def KnownState (d : Disk) : Prop := ∀ text, d.state = some text →
    ∃ saved : SavedState, text = stateText saved ∧ saved.Fits

theorem wp_loadState {Q : StateResult → Sys → Prop} (hcalm : Calm P s.disk s.kern) (hrel : s.kern.Reliable)
    (hknown : KnownState s.disk)
    (hnone : ∀ d k, Later P s.disk s.kern d k → d.state = s.disk.state → s.disk.state = none →
      Q .none ⟨d, s.reader, s.log, k⟩)
    (hsaved : ∀ saved d k, Later P s.disk s.kern d k → d.state = s.disk.state →
      s.disk.state = some (stateText saved) → saved.Fits → Q (.ok saved) ⟨d, s.reader, s.log, k⟩)
    (hc : ∀ d k, s.kern.crashIn ≠ none → Later P s.disk s.kern d k → d.state = s.disk.state →
      C ⟨d, s.reader, s.log, k⟩) : wp loadState Q C s := by
  refine Env.loadState (appending_ready hcalm) (fun hcr d k hgo hst => hc d k hcr hgo.1 hst) ?_
  intro x d k l hgo hst hx
  cases hstate : s.disk.state with
  | none =>
    have hno : x = .none := by
      by_contra hsome
      obtain ⟨code, hf⟩ := hx.absent hstate hsome
      exact hrel _ (by decide) code hf
    subst hno
    obtain rfl := hx.silent (by simp)
    exact hnone d k hgo.1 hst hstate
  | some text =>
    obtain ⟨saved, rfl, hfits⟩ := hknown text hstate
    obtain rfl := hx.eq_ok hstate (stateText_length_le hfits) (parseState_stateText hfits) fun code =>
      ⟨hrel _ (by decide) code, hrel _ (by decide) code⟩
    obtain rfl := hx.silent (by simp)
    exact hsaved saved d k hgo.1 hst hstate hfits

end State

end DominoLogForwarder.FileReader
