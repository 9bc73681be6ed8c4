/-
The environment in which no other program changes anything, and the process is not killed. The system calls may fail in
any way.

`Still` is what is left of the files behind some calls: the reader writes its state file, and nothing else.
-/
import DominoLogForwarder.FileReader.EnvSpec

namespace DominoLogForwarder.FileReader

open CrashProg FrM

structure Kernel.Frozen (k : Kernel) : Prop where
  others : k.others = []
  alive : k.crashIn = none

/-- `d'` and `k'` are what is left of `d` and `k` -/
structure Still (d : Disk) (k : Kernel) (d' : Disk) (k' : Kernel) : Prop where
  files : d'.files = d.files
  path : d'.path = d.path
  frozen : k'.Frozen
  calls : ∀ c, k'.oracle c <:+ k.oracle c

theorem Still.refl {d : Disk} {k : Kernel} (h : k.Frozen) : Still d k d k := ⟨rfl, rfl, h, fun _ => List.suffix_refl _⟩

theorem Still.trans {d d' d'' : Disk} {k k' k'' : Kernel} (h : Still d k d' k') (h' : Still d' k' d'' k'') :
    Still d k d'' k'' :=
  ⟨h'.files.trans h.files, h'.path.trans h.path, h'.frozen, fun c => (h'.calls c).trans (h.calls c)⟩

theorem Still.content {d d' : Disk} {k k' : Kernel} (h : Still d k d' k') (id : FileId) :
    (d'.files id).bytes = (d.files id).bytes := by
  rw [h.files]

theorem still_syscall {s : Sys} {c : Call} {Q : Fault → Sys → Prop} {C : Sys → Prop} (hk : s.kern.Frozen)
    (h : ∀ f d k, Still s.disk s.kern d k → Untouched s.disk d → (f = .ok ∨ f ∈ s.kern.oracle c) →
      Q f ⟨d, s.reader, s.log, k⟩) : wp (syscall c) Q C s := by
  refine wp_syscall_passed (fun f d k hp hf => ?_) fun hcr => absurd hk.alive hcr
  have hown := hp.untouched
  obtain ⟨rfl, hothers, hcalls, halive⟩ := hp
  rw [hk.others] at hothers hown ⊢
  exact h f _ k ⟨rfl, rfl, ⟨hothers, halive hk.alive⟩, hcalls⟩ hown hf

def frozen : Env where
  Goes := Still
  Killable := False
  trans h h' := h.trans h'
  right h := .refl h.frozen
  setState _ _ h := ⟨h.files, h.path, h.frozen, h.calls⟩
  calls h := h.calls
  syscall hs _ h := still_syscall hs.frozen h

theorem frozen_ready {s : Sys} (h : s.kern.Frozen) : frozen.Ready s := Still.refl h

/-- what can be said of a call which is killed -/
theorem frozen_alive {C : Sys → Prop} : frozen.Killable → ∀ s, C s := fun h => h.elim

/-- the path leads to the file, or to nothing -/
def Appears (f : FileId) (node : Option Node) : Prop := node = none ∨ node = some ⟨f, true⟩

theorem appears_regular {f id : FileId} {regular : Bool} (h : Appears f (some ⟨id, regular⟩)) : id = f := by
  rcases h with h | h
  · cases h
  · rw [Option.some.injEq, Node.mk.injEq] at h
    exact h.1

/-- and the path leads to no other file than `f` -/
def frozenAt (f : FileId) : Env where
  Goes d k d' k' := Still d k d' k' ∧ Appears f d'.path
  Killable := False
  trans h h' := ⟨h.1.trans h'.1, h'.2⟩
  right h := ⟨.refl h.1.frozen, h.2⟩
  setState _ _ h := ⟨⟨h.1.files, h.1.path, h.1.frozen, h.1.calls⟩, h.2⟩
  calls h := h.1.calls
  syscall hs _ h := still_syscall hs.1.frozen fun f d k hstill hst hf => h f d k ⟨hstill, hstill.path ▸ hs.2⟩ hst hf

theorem frozenAt_ready {f : FileId} {s : Sys} (h : s.kern.Frozen) (hpath : Appears f s.disk.path) :
    (frozenAt f).Ready s := ⟨Still.refl h, hpath⟩

end DominoLogForwarder.FileReader
