import Mathlib.Tactic.Common
import Mathlib.Data.List.Basic

/-!
# A linear buffer with a read and a write position

Memory is a total function of the position. `window` is what lies between two
positions, `store` writes a block, `memcpy` copies one. Whether a copy stays inside
the buffer and whether its two regions are disjoint is left to the caller.
-/

namespace TcpLib.LinearBuffer
variable {α : Type*}

def window (buf : ℕ → α) (r w : ℕ) : List α := (List.range' r (w - r)).map buf

def store (buf : ℕ → α) (off : ℕ) (data : List α) : ℕ → α :=
  fun i => if off ≤ i then (data[i - off]?).getD (buf i) else buf i

/-- The effect of a copy of `n` items between disjoint regions. -/
def memcpy (buf : ℕ → α) (dst src n : ℕ) : ℕ → α :=
  fun i => if dst ≤ i ∧ i < dst + n then buf (src + (i - dst)) else buf i

/-- A copy of `n` items inside a buffer of `cap` items, between disjoint regions. -/
def CopyOk (cap dst src n : ℕ) : Prop :=
  dst + n ≤ cap ∧ src + n ≤ cap ∧ (dst + n ≤ src ∨ src + n ≤ dst)

instance (cap dst src n : ℕ) : Decidable (CopyOk cap dst src n) := by
  unfold CopyOk; infer_instance

@[simp] theorem length_window (buf : ℕ → α) (r w : ℕ) : (window buf r w).length = w - r := by
  simp [window]

@[simp] theorem window_self (buf : ℕ → α) (r : ℕ) : window buf r r = [] := by
  simp [window]

theorem getElem_window (buf : ℕ → α) {r w i : ℕ} (h : i < (window buf r w).length) :
    (window buf r w)[i] = buf (r + i) := by
  simp [window]

theorem window_ext {buf buf' : ℕ → α} {r r' n : ℕ} (h : ∀ i < n, buf (r + i) = buf' (r' + i)) :
    window buf r (r + n) = window buf' r' (r' + n) := by
  apply List.ext_getElem
  · simp
  · intro i hi _
    simpa only [getElem_window] using h i (by simpa using hi)

theorem window_split (buf : ℕ → α) {r m w : ℕ} (hr : r ≤ m) (hw : m ≤ w) :
    window buf r w = window buf r m ++ window buf m w := by
  obtain ⟨a, rfl⟩ := Nat.exists_eq_add_of_le hr
  obtain ⟨b, rfl⟩ := Nat.exists_eq_add_of_le hw
  simp [window, Nat.add_sub_add_left, Nat.add_assoc, ← List.range'_append_1]

theorem drop_window (buf : ℕ → α) (r w k : ℕ) :
    (window buf r w).drop k = window buf (r + k) w := by
  apply List.ext_getElem
  · simp [Nat.sub_sub]
  · intro i hi hi'
    simp [getElem_window, Nat.add_assoc]

theorem take_window (buf : ℕ → α) {r w k : ℕ} (h : r + k ≤ w) :
    (window buf r w).take k = window buf r (r + k) := by
  apply List.ext_getElem
  · simp; omega
  · intro i hi hi'
    simp [getElem_window]

theorem window_store (buf : ℕ → α) {r w : ℕ} (data : List α) (h : r ≤ w) :
    window (store buf w data) r (w + data.length) = window buf r w ++ data := by
  rw [window_split _ h (Nat.le_add_right w data.length)]
  congr 1
  · obtain ⟨n, rfl⟩ := Nat.exists_eq_add_of_le h
    apply window_ext
    intro i hi
    simp only [store]
    rw [if_neg (by omega)]
  · apply List.ext_getElem
    · simp
    · intro i hi hi'
      simp [getElem_window, store, hi']

theorem window_shift (buf : ℕ → α) (r w : ℕ) :
    window (fun i => buf (r + i)) 0 (w - r) = window buf r w := by
  apply List.ext_getElem
  · simp
  · intro i hi hi'
    simp [getElem_window]

theorem window_memcpy (buf : ℕ → α) (dst src n : ℕ) :
    window (memcpy buf dst src n) dst (dst + n) = window buf src (src + n) := by
  apply window_ext
  intro i hi
  simp [memcpy, hi]

/-- Moving the unread part to the front of the buffer keeps it. -/
theorem window_compact (buf : ℕ → α) {r w : ℕ} (h : r ≤ w) :
    window (memcpy buf 0 r (w - r)) 0 (w - r) = window buf r w := by
  have hmove := window_memcpy buf 0 r (w - r)
  rwa [Nat.zero_add, Nat.add_sub_cancel' h] at hmove

end TcpLib.LinearBuffer
