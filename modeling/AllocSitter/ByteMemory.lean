/-
Byte-addressed memory with little-endian words of any width.  A store is
described by the bytes it leaves alone, so every later frame argument is a
question about two intervals of addresses.
-/
import Mathlib.Data.Nat.ModEq
import Mathlib.Tactic.Ring

namespace ByteMemory

abbrev Memory := Nat → UInt8

/-- The `width`-byte little-endian word at `addr`. -/
def load (m : Memory) : Nat → Nat → Nat
  | _, 0 => 0
  | addr, width + 1 => (m addr).toNat + 256 * load m (addr + 1) width

/-- Replace the `width` bytes from `addr` on by the digits of `value`. -/
def store (m : Memory) (addr width value : Nat) : Memory := fun x =>
  if addr ≤ x ∧ x < addr + width then UInt8.ofNat (value / 256 ^ (x - addr))
  else m x

/-- `memset`: every byte of an interval becomes `byte`. -/
def fill (m : Memory) (addr len : Nat) (byte : UInt8) : Memory := fun x =>
  if addr ≤ x ∧ x < addr + len then byte else m x

/-- `memcpy`: the source is read in the memory before the copy. -/
def copy (m : Memory) (dst src len : Nat) : Memory := fun x =>
  if dst ≤ x ∧ x < dst + len then m (src + (x - dst)) else m x

/-- Two memories that hold the same bytes on `[addr, addr + len)`. -/
def SameOn (m m' : Memory) (addr len : Nat) : Prop :=
  ∀ x, addr ≤ x → x < addr + len → m' x = m x

/-- Two memories that may differ on `[addr, addr + len)` only. -/
def SameOutside (m m' : Memory) (addr len : Nat) : Prop :=
  ∀ x, (x < addr ∨ addr + len ≤ x) → m' x = m x

variable {m m' m'' : Memory} {addr width len : Nat}

theorem load_lt (m : Memory) (addr width : Nat) :
    load m addr width < 256 ^ width := by
  induction width generalizing addr with
  | zero => simp [load]
  | succ n ih =>
      have hbyte := (m addr).toNat_lt
      have hrest := ih (addr + 1)
      rw [load, pow_succ]
      omega

theorem load_congr (h : SameOn m m' addr width) :
    load m' addr width = load m addr width := by
  induction width generalizing addr with
  | zero => rfl
  | succ n ih =>
      have hhead : m' addr = m addr := h addr (Nat.le_refl _) (by omega)
      have htail : load m' (addr + 1) n = load m (addr + 1) n :=
        ih fun x hlo hhi => h x (by omega) (by omega)
      rw [load, load, hhead, htail]

/-- A word determines its bytes. -/
theorem sameOn_of_load_eq (h : load m' addr width = load m addr width) :
    SameOn m m' addr width := by
  induction width generalizing addr with
  | zero =>
      intro x hlo hhi
      omega
  | succ n ih =>
      have hbyte := (m addr).toNat_lt
      have hbyte' := (m' addr).toNat_lt
      rw [load, load] at h
      have hhead : m' addr = m addr := UInt8.toNat_inj.mp (by omega)
      have htail := ih (by omega : load m' (addr + 1) n = load m (addr + 1) n)
      intro x hlo hhi
      by_cases hx : x = addr
      · rw [hx, hhead]
      · exact htail x (by omega) (by omega)

theorem store_sameOutside (m : Memory) (addr width value : Nat) :
    SameOutside m (store m addr width value) addr width := by
  intro x hx
  have hout : ¬ (addr ≤ x ∧ x < addr + width) := by omega
  simp only [store, hout, ↓reduceIte]

theorem fill_sameOutside (m : Memory) (addr len : Nat) (byte : UInt8) :
    SameOutside m (fill m addr len byte) addr len := by
  intro x hx
  have hout : ¬ (addr ≤ x ∧ x < addr + len) := by omega
  simp only [fill, hout, ↓reduceIte]

theorem copy_sameOutside (m : Memory) (dst src len : Nat) :
    SameOutside m (copy m dst src len) dst len := by
  intro x hx
  have hout : ¬ (dst ≤ x ∧ x < dst + len) := by omega
  simp only [copy, hout, ↓reduceIte]

/-- Storing a value and loading it back truncates it to the word's width. -/
theorem load_store_same (m : Memory) (addr width value : Nat) :
    load (store m addr width value) addr width = value % 256 ^ width := by
  -- Peel the lowest digit: what is left is a store one byte further on.
  induction width generalizing m addr value with
  | zero => simp [load, Nat.mod_one]
  | succ n ih =>
      have hhead : (store m addr (n + 1) value addr).toNat = value % 256 := by
        simp [store]
      have htail : load (store m addr (n + 1) value) (addr + 1) n =
          load (store m (addr + 1) n (value / 256)) (addr + 1) n := by
        apply load_congr
        intro x hlo hhi
        have hx : x - addr = (x - (addr + 1)) + 1 := by omega
        have hleft : addr ≤ x ∧ x < addr + (n + 1) := by omega
        have hright : addr + 1 ≤ x ∧ x < addr + 1 + n := by omega
        simp only [store, hleft, hright, and_self, ↓reduceIte]
        rw [hx, pow_succ', Nat.div_div_eq_div_mul]
      rw [load, hhead, htail, ih, pow_succ', Nat.mod_mul]

theorem SameOutside.sameOn (h : SameOutside m m' addr len) {a n : Nat}
    (hsep : a + n ≤ addr ∨ addr + len ≤ a) : SameOn m m' a n := by
  intro x hlo hhi
  exact h x (by omega)

theorem SameOutside.load_eq (h : SameOutside m m' addr len) {a n : Nat}
    (hsep : a + n ≤ addr ∨ addr + len ≤ a) : load m' a n = load m a n :=
  load_congr (h.sameOn hsep)

theorem SameOutside.mono (h : SameOutside m m' addr len) {a n : Nat}
    (hlo : a ≤ addr) (hhi : addr + len ≤ a + n) : SameOutside m m' a n := by
  intro x hx
  exact h x (by omega)

theorem SameOutside.trans (h : SameOutside m m' addr len) (h' : SameOutside m' m'' addr len) :
    SameOutside m m'' addr len :=
  fun x hx => (h' x hx).trans (h x hx)

theorem SameOn.refl (m : Memory) (addr len : Nat) : SameOn m m addr len :=
  fun _ _ _ => rfl

theorem SameOn.trans (h : SameOn m m' addr len) (h' : SameOn m' m'' addr len) :
    SameOn m m'' addr len :=
  fun x hlo hhi => (h' x hlo hhi).trans (h x hlo hhi)

theorem SameOn.mono (h : SameOn m m' addr len) {a n : Nat}
    (hlo : addr ≤ a) (hhi : a + n ≤ addr + len) : SameOn m m' a n :=
  fun x hx hx' => h x (by omega) (by omega)

/-- The workhorse: a load does not see a store to other bytes. -/
theorem load_store_of_disjoint (m : Memory) (value : Nat) {a n : Nat}
    (hsep : a + n ≤ addr ∨ addr + width ≤ a) :
    load (store m addr width value) a n = load m a n :=
  (store_sameOutside m addr width value).load_eq hsep

/-- Stores to separate intervals commute. -/
theorem store_comm (m : Memory) (v w : Nat) {a n b k : Nat}
    (hsep : a + n ≤ b ∨ b + k ≤ a) :
    store (store m a n v) b k w = store (store m b k w) a n v := by
  funext x
  by_cases hb : b ≤ x ∧ x < b + k
  · have ha : ¬ (a ≤ x ∧ x < a + n) := by omega
    simp only [store, hb, ha, and_self, ↓reduceIte]
  · simp only [store, hb, ↓reduceIte]

theorem copy_apply (m : Memory) {dst src len i : Nat} (hi : i < len) :
    copy m dst src len (dst + i) = m (src + i) := by
  have hin : dst ≤ dst + i ∧ dst + i < dst + len := by omega
  simp [copy, hi]

end ByteMemory
