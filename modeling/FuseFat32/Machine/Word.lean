import Mathlib.Data.Nat.Bitwise
import Mathlib.Tactic.Ring

/-!
# Machine words and stopping calls

The driver computes in `u32` almost everywhere, so natural numbers stand for its words and `u32` marks each place where the source truncates. A call that does not come back is `none`: a failed assertion, an empty optional that is opened inside a `noexcept` function, a division by zero, or a loop without end.
-/

namespace FuseFat32

/-- A call of the driver: `none` when the process stops inside it or never leaves it. -/
abbrev Exec := Option

/-- `assert(c)`. -/
def assert (c : Bool) : Exec Unit := if c then some () else none

@[simp] theorem assert_true : assert true = some () := rfl

@[simp] theorem assert_false : assert false = none := rfl

theorem assert_eq_some {c : Bool} {u : Unit} : assert c = some u ↔ c = true := by
  cases c <;> simp

theorem foldlM_keeps {σ α : Type*} {P : σ → Prop} {step : σ → α → Exec σ} {l : List α}
    (hstep : ∀ a ∈ l, ∀ s s', P s → step s a = some s' → P s') {s s' : σ} (h : P s)
    (hrun : l.foldlM step s = some s') : P s' := by
  induction l generalizing s with
  | nil =>
    obtain rfl := Option.some.inj hrun
    exact h
  | cons a l ih =>
    obtain ⟨s₁, hfirst, hrest⟩ := Option.bind_eq_some_iff.mp hrun
    exact ih (fun b hb => hstep b (List.mem_cons_of_mem a hb)) (hstep a List.mem_cons_self s s₁ h hfirst) hrest

/-- Truncation to 32 bits. -/
def u32 (n : Nat) : Nat := n % 2 ^ 32

theorem u32_lt (n : Nat) : u32 n < 2 ^ 32 := Nat.mod_lt _ (by decide)

theorem u32_of_lt {n : Nat} (h : n < 2 ^ 32) : u32 n = n := Nat.mod_eq_of_lt h

/-- Subtraction in `u32`. -/
def u32Sub (a b : Nat) : Nat := u32 (a + (2 ^ 32 - u32 b))

theorem u32Sub_of_le {a b : Nat} (hab : b ≤ a) (ha : a < 2 ^ 32) : u32Sub a b = a - b := by
  simp only [u32Sub, u32]
  omega

/-! ### Little-endian words in byte arrays -/

/-- The 32-bit word at offset `off` of a byte array. -/
def read32 (v : Nat → UInt8) (off : Nat) : Nat :=
  (v off).toNat + 2 ^ 8 * (v (off + 1)).toNat + 2 ^ 16 * (v (off + 2)).toNat + 2 ^ 24 * (v (off + 3)).toNat

/-- The 16-bit word at offset `off` of a byte array. -/
def read16 (v : Nat → UInt8) (off : Nat) : Nat := (v off).toNat + 2 ^ 8 * (v (off + 1)).toNat

/-- The four bytes of a 32-bit word. -/
def le32 (w : Nat) : List UInt8 :=
  [UInt8.ofNat w, UInt8.ofNat (w / 2 ^ 8), UInt8.ofNat (w / 2 ^ 16), UInt8.ofNat (w / 2 ^ 24)]

/-- The two bytes of a 16-bit word. -/
def le16 (w : Nat) : List UInt8 := [UInt8.ofNat w, UInt8.ofNat (w / 2 ^ 8)]

@[simp] theorem length_le32 (w : Nat) : (le32 w).length = 4 := rfl

@[simp] theorem length_le16 (w : Nat) : (le16 w).length = 2 := rfl

theorem read32_lt (v : Nat → UInt8) (off : Nat) : read32 v off < 2 ^ 32 := by
  have h0 := (v off).toNat_lt
  have h1 := (v (off + 1)).toNat_lt
  have h2 := (v (off + 2)).toNat_lt
  have h3 := (v (off + 3)).toNat_lt
  simp only [read32]
  omega

theorem read16_lt (v : Nat → UInt8) (off : Nat) : read16 v off < 2 ^ 16 := by
  have h0 := (v off).toNat_lt
  have h1 := (v (off + 1)).toNat_lt
  simp only [read16]
  omega

theorem read32_congr {v v' : Nat → UInt8} {off : Nat}
    (h : ∀ i, off ≤ i → i < off + 4 → v' i = v i) : read32 v' off = read32 v off := by
  simp only [read32, h off (by omega) (by omega), h (off + 1) (by omega) (by omega),
    h (off + 2) (by omega) (by omega), h (off + 3) (by omega) (by omega)]

theorem read32_inj {v v' : Nat → UInt8} {off : Nat} (h : read32 v' off = read32 v off) :
    ∀ k < 4, v' (off + k) = v (off + k) := by
  intro k hk
  have h0 := (v off).toNat_lt
  have h1 := (v (off + 1)).toNat_lt
  have h2 := (v (off + 2)).toNat_lt
  have h0' := (v' off).toNat_lt
  have h1' := (v' (off + 1)).toNat_lt
  have h2' := (v' (off + 2)).toNat_lt
  simp only [read32] at h
  apply UInt8.toNat_inj.mp
  have hcases : k = 0 ∨ k = 1 ∨ k = 2 ∨ k = 3 := by omega
  rcases hcases with rfl | rfl | rfl | rfl
  · rw [Nat.add_zero]
    omega
  · omega
  · omega
  · omega

end FuseFat32
