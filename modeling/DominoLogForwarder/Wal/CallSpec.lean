/-
The rules of the system calls: every way a call can end, and what it leaves behind when the process is killed before it.

The rules are stated for `wp`, with one premise for each outcome. In every premise the machine after the call is `Later`
than the one before. An outcome which needs a failure says so (`oracle c ≠ []`), so on a quiet machine only the good
outcomes are left.
-/
import DominoLogForwarder.Wal.SimpleWal

namespace DominoLogForwarder.Wal

open CrashProg Framing WalM

variable {D : Files → Prop} {s : Sys}

/-! ## System calls -/

section Calls

variable {c : Call}

theorem wp_syscall {Q : Fault → Sys → Prop}
    (h : ∀ f k, s.kern.Later k → (f = .ok ∨ f ∈ s.kern.oracle c) → Q f ⟨s.files, s.wal, s.log, k⟩)
    (hc : s.kern.crashIn ≠ none → D s.files) : wp (syscall c) Q (fun s' => D s'.files) s := by
  unfold wp syscall
  have hlater : ∀ n, (s.kern.crashIn = none → n = none) → s.kern.Later { s.kern with crashIn := n } :=
    fun n hn => ⟨fun _ => List.suffix_refl _, hn⟩
  split
  · rename_i hcase
    split at hcase
    · cases hcase
    · split at hcase
      · cases hcase
        exact h _ _ (hlater _ fun hn => by rw [hn]; rfl) (Or.inl rfl)
      · rename_i f fs hf
        cases hcase
        refine h _ _ ⟨fun c' => ?_, fun hn => by rw [hn]; rfl⟩ (Or.inr (by rw [hf]; exact List.mem_cons_self))
        show Function.update s.kern.oracle c fs c' <:+ s.kern.oracle c'
        by_cases hcc : c' = c
        · subst hcc
          rw [hf, Function.update_self]
          exact List.suffix_cons _ _
        · rw [Function.update_of_ne hcc]
  · rename_i hcase
    split at hcase
    · rename_i hcr
      cases hcase
      exact hc (by rw [hcr]; simp)
    · split at hcase <;> cases hcase

theorem wp_setFiles {Q : Unit → Sys → Prop} {C : Sys → Prop} (f : Files → Files) :
    wp (setFiles f) Q C s = Q () ⟨f s.files, s.wal, s.log, s.kern⟩ := rfl

theorem wp_setWal {Q : Unit → Sys → Prop} {C : Sys → Prop} (f : SimpleWal → SimpleWal) :
    wp (setWal f) Q C s = Q () ⟨s.files, f s.wal, s.log, s.kern⟩ := rfl

theorem Kernel.Later.errno {k k' : Kernel} (h : k.Later k') (e : Errno) : k.Later { k' with errno := e } :=
  ⟨h.calls, h.alive⟩

theorem wp_attempt {Q : Bool → Sys → Prop}
    (hok : ∀ k, s.kern.Later k → Q true ⟨s.files, s.wal, s.log, k⟩)
    (hfail : ∀ k, s.kern.Later k → s.kern.oracle c ≠ [] → (∃ code, k.errno = .other code) →
      Q false ⟨s.files, s.wal, s.log, k⟩)
    (hc : s.kern.crashIn ≠ none → D s.files) : wp (attempt c) Q (fun s' => D s'.files) s := by
  unfold attempt
  rw [wp_bind]
  refine wp_syscall (fun f k hk hf => ?_) hc
  cases f with
  | ok => exact hok k hk
  | short n => exact hok k hk
  | fail code =>
    refine hfail _ (hk.errno _) (fun h0 => ?_) ⟨code, rfl⟩
    rw [h0] at hf
    simp at hf

theorem wp_pread {Q : Option Bytes → Sys → Prop} {offset len : ℕ}
    (hfull : ∀ k, s.kern.Later k → Q (some ((s.files.walBytes.drop offset).take len)) ⟨s.files, s.wal, s.log, k⟩)
    (hfail : ∀ k, s.kern.Later k → s.kern.oracle c ≠ [] → Q none ⟨s.files, s.wal, s.log, k⟩)
    (hshort : ∀ n k, s.kern.Later k → Fault.short n ∈ s.kern.oracle c →
      Q (some (((s.files.walBytes.drop offset).take len).take n)) ⟨s.files, s.wal, s.log, k⟩)
    (hc : s.kern.crashIn ≠ none → D s.files) : wp (pread c offset len) Q (fun s' => D s'.files) s := by
  unfold pread
  rw [wp_bind]
  refine wp_syscall (fun f k hk hf => ?_) hc
  cases f with
  | ok => exact hfull k hk
  | short n => exact hshort n k hk (by simpa using hf)
  | fail code =>
    refine hfail _ (hk.errno _) (fun h0 => ?_)
    rw [h0] at hf
    simp at hf

end Calls

/-! ## Writing to a file -/

/-- `bs` was written at the end of a file of `fs` -/
def Appended (t : Target) (fs : Files) (bs : Bytes) (fs' : Files) : Prop :=
  (bs = [] ∧ fs' = fs) ∨ fs.write t bs = some fs'

theorem Files.write_append {fs fs' : Files} {t : Target} {a b : Bytes} (h : fs.write t a = some fs') :
    fs'.write t b = fs.write t (a ++ b) := by
  cases t with
  | wal =>
    obtain ⟨w, hw⟩ : ∃ w, fs.wal = some w := by
      cases hw : fs.wal with
      | none => simp [Files.write, hw] at h
      | some w => exact ⟨w, rfl⟩
    simp only [Files.write, hw, Option.bind_some, Option.map_eq_some_iff] at h ⊢
    obtain ⟨f, hf, rfl⟩ := h
    have hfb := File.append?_eq hf
    unfold File.append? at hf ⊢
    split_ifs at hf
    simp only [Option.bind_some, hfb, List.append_assoc]
  | commit =>
    cases h
    cases hc : fs.commit <;> simp [Files.write, hc]
  | corrupt =>
    cases h
    cases hc : fs.corrupt <;> simp [Files.write, hc]

theorem Appended.trans {t : Target} {fs fs' fs'' : Files} {a b : Bytes} (h : fs.write t a = some fs')
    (h' : Appended t fs' b fs'') : Appended t fs (a ++ b) fs'' := by
  rcases h' with ⟨rfl, rfl⟩ | h'
  · right; rw [List.append_nil]; exact h
  · right; rw [← Files.write_append h]; exact h'

theorem Appended.commit {fs fs' : Files} {bs : Bytes} (h : Appended .commit fs bs fs') :
    fs' = { fs with commit := fs.commit.map (· ++ bs) } := by
  rcases h with ⟨rfl, rfl⟩ | h
  · cases fs' with
    | mk w c q l => cases c <;> simp
  · cases h; rfl

theorem Appended.corrupt {fs fs' : Files} {bs : Bytes} (h : Appended .corrupt fs bs fs') :
    fs' = { fs with corrupt := fs.corrupt.map (· ++ bs) } := by
  rcases h with ⟨rfl, rfl⟩ | h
  · cases fs' with
    | mk w c q l => cases q <;> simp
  · cases h; rfl

theorem Appended.wal {fs fs' : Files} {bs : Bytes} {f : File} (hf : fs.wal = some f) (h : Appended .wal fs bs fs') :
    ∃ f', fs' = { fs with wal := some f' } ∧ f'.bytes = f.bytes ++ bs := by
  rcases h with ⟨rfl, rfl⟩ | h
  · exact ⟨f, by rw [← hf], by simp⟩
  · simp only [Files.write, hf, Option.bind_some, Option.map_eq_some_iff] at h
    obtain ⟨f', hf', rfl⟩ := h
    exact ⟨f', rfl, File.append?_eq hf'⟩

section Write

variable {t : Target} {bs : Bytes}

theorem wp_put {Q : Option ℕ → Sys → Prop} {C : Sys → Prop}
    (hok : ∀ fs, s.files.write t bs = some fs → Q (some bs.length) ⟨fs, s.wal, s.log, s.kern⟩)
    (hfail : s.files.write t bs = none → Q none ⟨s.files, s.wal, s.log, { s.kern with errno := .EFBIG }⟩) :
    wp (put t bs) Q C s := by
  unfold put
  rw [wp_bind, wp_get]
  cases h : s.files.write t bs with
  | none => exact hfail h
  | some fs => exact hok fs h

/-- a failed or killed write has written a proper prefix -/
theorem wp_writeAllToFd {Q : Bool → Sys → Prop} {fuel : ℕ} (hfuel : bs.length ≤ fuel)
    (hok : ∀ fs k, s.kern.Later k → Appended t s.files bs fs → Q true ⟨fs, s.wal, s.log, k⟩)
    (hfail : ∀ p fs k, s.kern.Later k → p <+: bs → p ≠ bs → Appended t s.files p fs →
      (s.kern.oracle t.call ≠ [] ∨ s.files.write t bs = none ∧ p = []) → Q false ⟨fs, s.wal, s.log, k⟩)
    (hc : ∀ p fs, s.kern.crashIn ≠ none → p <+: bs → p ≠ bs → Appended t s.files p fs → D fs) :
    wp (writeAllToFd t fuel bs) Q (fun s' => D s'.files) s := by
  induction fuel generalizing bs s with
  | zero =>
    obtain rfl : bs = [] := List.length_eq_zero_iff.1 (Nat.le_zero.1 hfuel)
    exact hok _ _ (.refl _) (Or.inl ⟨rfl, rfl⟩)
  | succ fuel ih =>
    cases bs with
    | nil => exact hok _ _ (.refl _) (Or.inl ⟨rfl, rfl⟩)
    | cons b bs =>
      -- what a write of `n + 1` bytes leaves to do
      have hput : ∀ (n : ℕ) (k : Kernel), s.kern.Later k →
          (n < bs.length → s.kern.oracle t.call ≠ []) →
          wp (put t ((b :: bs).take (n + 1)))
            (fun r => wp (writeOn t fuel (b :: bs) r) Q fun s' => D s'.files) (fun s' => D s'.files)
            ⟨s.files, s.wal, s.log, k⟩ := by
        intro n k hk hshort
        refine wp_put (fun fs hfs => ?_) (fun hnone => ?_)
        · have htake : (b :: bs).take (n + 1) ++ (b :: bs).drop (n + 1) = b :: bs := List.take_append_drop _ _
          have hdrop : (b :: bs).drop ((b :: bs).take (n + 1)).length = (b :: bs).drop (n + 1) := by
            rw [List.length_take]
            rcases le_total (n + 1) (b :: bs).length with h | h
            · rw [min_eq_left h]
            · rw [min_eq_right h, List.drop_length, List.drop_eq_nil_of_le h]
          have hlen : ((b :: bs).take (n + 1)).length = (bs.take n).length + 1 := rfl
          have hpre : ∀ p, p <+: (b :: bs).drop (n + 1) → (b :: bs).take (n + 1) ++ p <+: b :: bs := by
            intro p hp
            conv_rhs => rw [← htake]
            exact (List.prefix_append_right_inj _).2 hp
          rw [hlen] at hdrop ⊢
          show wp (writeAllToFd t fuel ((b :: bs).drop ((bs.take n).length + 1))) _ _ _
          rw [hdrop]
          refine ih (s := ⟨fs, s.wal, s.log, k⟩) ?_ ?_ ?_ ?_
          · simp only [List.length_cons] at hfuel
            simp only [List.drop_succ_cons, List.length_drop]
            omega
          · intro fs' k' hk' happ
            exact hok fs' k' (hk.trans hk') (htake ▸ Appended.trans hfs happ)
          · intro p fs' k' hk' hp hne happ hwhy
            refine hfail _ fs' k' (hk.trans hk') (hpre p hp) ?_
              (Appended.trans hfs happ) (Or.inl fun h0 => ?_)
            · intro heq
              exact hne (List.append_cancel_left (heq.trans htake.symm))
            · rcases hwhy with hwhy | ⟨hwhy, -⟩
              · exact hwhy (hk.reliable h0)
              · have hn : ¬ n < bs.length := fun hn => hshort hn h0
                have hnil : (b :: bs).drop (n + 1) = [] := List.drop_eq_nil_of_le (by simp; omega)
                rw [hnil] at hp hne
                exact hne (List.prefix_nil.1 hp)
          · intro p fs' hcr hp hne happ
            refine hc _ fs' (fun h0 => hcr (hk.alive h0)) (hpre p hp) ?_
              (Appended.trans hfs happ)
            intro heq
            exact hne (List.append_cancel_left (heq.trans htake.symm))
        · refine hfail [] s.files _ (hk.errno _) List.nil_prefix (by simp) (Or.inl ⟨rfl, rfl⟩) ?_
          by_cases hn : n < bs.length
          · exact Or.inl (hshort hn)
          · right
            rw [List.take_of_length_le (by simp; omega)] at hnone
            exact ⟨hnone, rfl⟩
      unfold writeAllToFd write
      rw [wp_bind, wp_bind]
      refine wp_syscall (fun f k hk hf => ?_) fun hcr =>
        hc [] s.files hcr List.nil_prefix (by simp) (Or.inl ⟨rfl, rfl⟩)
      cases f with
      | ok =>
        have := hput bs.length k hk (fun h => absurd h (lt_irrefl _))
        rwa [List.take_of_length_le (by simp)] at this
      | fail code =>
        refine hfail [] s.files _ (hk.errno _) List.nil_prefix (by simp) (Or.inl ⟨rfl, rfl⟩) (Or.inl fun h0 => ?_)
        rw [h0] at hf; simp at hf
      | short n =>
        have hne : s.kern.oracle t.call ≠ [] := fun h0 => by rw [h0] at hf; simp at hf
        cases n with
        | zero =>
          refine wp_put (fun fs hfs => ?_) (fun hnone => ?_)
          · exact hfail [] fs k hk List.nil_prefix (by simp) (Or.inr hfs) (Or.inl hne)
          · exact hfail [] s.files _ (hk.errno _) List.nil_prefix (by simp) (Or.inl ⟨rfl, rfl⟩) (Or.inl hne)
        | succ n => exact hput n k hk (fun _ => hne)

end Write

/-! ## Messages -/

section Messages

variable {Q : Unit → Sys → Prop} {C : Sys → Prop}

theorem wp_queueLine {m : Message} (h : ∀ l, Q () ⟨s.files, s.wal, l, s.kern⟩) : wp (queueLine m) Q C s := h _

theorem wp_queueErrno {m : Errno → Message} (h : ∀ l, Q () ⟨s.files, s.wal, l, s.kern⟩) :
    wp (queueErrno m) Q C s := h _

theorem wp_queueInfo {m : Message} (h : ∀ l, Q () ⟨s.files, s.wal, l, s.kern⟩) : wp (queueInfo m) Q C s := by
  unfold queueInfo
  rw [wp_bind, wp_get, wp_ite]
  exact ⟨fun _ => h s.log, fun _ => h _⟩

/-- the messages are given out at the end of a section -/
theorem wp_locked {α : Type} {m : WalM α} {Q : α → Sys → Prop}
    (h : wp m (fun a s' => ∀ l, Q a ⟨s'.files, s'.wal, l, s'.kern⟩) C s) : wp (locked m) Q C s := by
  unfold locked
  rw [wp_bind]
  exact wp_mono h (fun a s' hq => hq _) fun _ hc => hc

end Messages

theorem wp_restrictMode {c : Call} {m : Message} {Q : Unit → Sys → Prop}
    (h : ∀ l k, s.kern.Later k → Q () ⟨s.files, s.wal, l, k⟩) (hc : s.kern.crashIn ≠ none → D s.files) :
    wp (restrictMode c m) Q (fun s' => D s'.files) s := by
  unfold restrictMode
  rw [wp_bind]
  exact wp_attempt (fun k hk => h _ k hk) (fun k hk _ _ => wp_queueInfo fun l => h l k hk) hc

end DominoLogForwarder.Wal
