import Mathlib.Tactic

set_option autoImplicit false

/-! # Byte memories and 32-bit words

A memory is a function from addresses to bytes. Every write of this file is a `patch`: the
bytes of one interval are replaced, the others are kept. A word is four bytes in
little-endian order. Two facts are used everywhere: a word just stored is read back
(`loadWord_storeWord`), and a word whose bytes are outside the patched interval is kept
(`loadWord_congr` with `AgreeOff`).
-/

namespace Words

/-- Replace the `n` bytes from `a` on; byte `i` of the interval becomes `f i`. -/
def patch (m : Nat → UInt8) (a n : Nat) (f : Nat → UInt8) : Nat → UInt8 :=
  fun x => if a ≤ x ∧ x < a + n then f (x - a) else m x

/-- The word at `a`, least significant byte first. -/
def loadWord (m : Nat → UInt8) (a : Nat) : Nat :=
  (m a).toNat + 256 * (m (a + 1)).toNat + 65536 * (m (a + 2)).toNat
    + 16777216 * (m (a + 3)).toNat

/-- Store `v`, modulo `2^32`, at `a`. -/
def storeWord (m : Nat → UInt8) (a v : Nat) : Nat → UInt8 :=
  patch m a 4 (fun i => UInt8.ofNat (v / 256 ^ i))

theorem patch_in {m : Nat → UInt8} {a n x : Nat} {f : Nat → UInt8} (h : a ≤ x ∧ x < a + n) :
    patch m a n f x = f (x - a) := if_pos h

theorem patch_out {m : Nat → UInt8} {a n x : Nat} {f : Nat → UInt8} (h : x < a ∨ a + n ≤ x) :
    patch m a n f x = m x := if_neg (by omega)

theorem loadWord_congr {m m' : Nat → UInt8} {w : Nat}
    (h : ∀ x, w ≤ x → x < w + 4 → m' x = m x) : loadWord m' w = loadWord m w := by
  have h0 := h w (by omega) (by omega)
  have h1 := h (w + 1) (by omega) (by omega)
  have h2 := h (w + 2) (by omega) (by omega)
  have h3 := h (w + 3) (by omega) (by omega)
  simp only [loadWord, h0, h1, h2, h3]

theorem loadWord_lt (m : Nat → UInt8) (a : Nat) : loadWord m a < 2 ^ 32 := by
  have h0 := (m a).toNat_lt
  have h1 := (m (a + 1)).toNat_lt
  have h2 := (m (a + 2)).toNat_lt
  have h3 := (m (a + 3)).toNat_lt
  unfold loadWord
  omega

/-- **Read back.** The word just stored, modulo `2^32`. -/
theorem loadWord_storeWord (m : Nat → UInt8) (a v : Nat) :
    loadWord (storeWord m a v) a = v % 2 ^ 32 := by
  have byte : ∀ i, i < 4 →
      (storeWord m a v (a + i)).toNat = v / 256 ^ i % 256 := by
    intro i hi
    rw [storeWord, patch_in (by omega), Nat.add_sub_cancel_left]
    exact UInt8.toNat_ofNat'
  have h0 := byte 0 (by omega)
  have h1 := byte 1 (by omega)
  have h2 := byte 2 (by omega)
  have h3 := byte 3 (by omega)
  unfold loadWord
  rw [Nat.add_zero] at h0
  rw [h0, h1, h2, h3]
  norm_num
  omega

/-! ## Agreement off an interval -/

/-- `m'` agrees with `m` outside `[a, e)`. -/
def AgreeOff (a e : Nat) (m m' : Nat → UInt8) : Prop :=
  ∀ x, x < a ∨ e ≤ x → m' x = m x

theorem AgreeOff.refl (a e : Nat) (m : Nat → UInt8) : AgreeOff a e m m := fun _ _ => rfl

theorem AgreeOff.trans {a e : Nat} {m m' m'' : Nat → UInt8} (h : AgreeOff a e m m')
    (h' : AgreeOff a e m' m'') : AgreeOff a e m m'' :=
  fun x hx => (h' x hx).trans (h x hx)

theorem AgreeOff.mono {a e a' e' : Nat} {m m' : Nat → UInt8} (h : AgreeOff a e m m')
    (ha : a' ≤ a) (he : e ≤ e') : AgreeOff a' e' m m' :=
  fun x hx => h x (by omega)

theorem agreeOff_patch (m : Nat → UInt8) (a n : Nat) (f : Nat → UInt8) :
    AgreeOff a (a + n) m (patch m a n f) := fun _ hx => patch_out hx

/-- One more word stored inside the interval. -/
theorem AgreeOff.storeWord {a e p v : Nat} {m m' : Nat → UInt8} (h : AgreeOff a e m m')
    (hp : a ≤ p) (he : p + 4 ≤ e) : AgreeOff a e m (storeWord m' p v) :=
  h.trans ((agreeOff_patch m' p 4 _).mono hp he)

theorem AgreeOff.loadWord {a e w : Nat} {m m' : Nat → UInt8} (h : AgreeOff a e m m')
    (hw : w + 4 ≤ a ∨ e ≤ w) : loadWord m' w = loadWord m w :=
  loadWord_congr (fun x _ _ => h x (by omega))

/-- A word disjoint from the one stored is kept. -/
theorem loadWord_storeWord_ne {m : Nat → UInt8} {p v w : Nat}
    (h : w + 4 ≤ p ∨ p + 4 ≤ w) : loadWord (storeWord m p v) w = loadWord m w :=
  (agreeOff_patch m p 4 _).loadWord h

end Words
