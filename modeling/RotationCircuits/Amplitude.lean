import RotationCircuits.Scalar

/-!
# Amplitudes

Complex numbers over a scalar, with the operations spelled out on real and imaginary parts.
-/

namespace RotationCircuits

/-- The complex number `re + im * i`. -/
structure Amplitude (α : Type) where
  re : α
  im : α
deriving BEq, DecidableEq, Repr

namespace Amplitude

variable {α : Type} [Scalar α]

def zero : Amplitude α := ⟨0.0, 0.0⟩

def one : Amplitude α := ⟨1.0, 0.0⟩

instance : Add (Amplitude α) := ⟨fun z w => ⟨z.re + w.re, z.im + w.im⟩⟩

instance : Sub (Amplitude α) := ⟨fun z w => ⟨z.re - w.re, z.im - w.im⟩⟩

instance : Neg (Amplitude α) := ⟨fun z => ⟨-z.re, -z.im⟩⟩

instance : Mul (Amplitude α) :=
  ⟨fun z w => ⟨z.re * w.re - z.im * w.im, z.re * w.im + z.im * w.re⟩⟩

/-- The number with length `r` and angle `t` in radians. -/
def polar (r t : α) : Amplitude α := ⟨r * Scalar.cos t, r * Scalar.sin t⟩

def conj (z : Amplitude α) : Amplitude α := ⟨z.re, -z.im⟩

/-- Angle in radians; zero for the number zero. -/
def arg (z : Amplitude α) : α := Scalar.atan2 z.im z.re

def norm (z : Amplitude α) : α := Scalar.hypot z.re z.im

def normSq (z : Amplitude α) : α := z.re * z.re + z.im * z.im

@[simp] theorem add_re (z w : Amplitude α) : (z + w).re = z.re + w.re := rfl

@[simp] theorem add_im (z w : Amplitude α) : (z + w).im = z.im + w.im := rfl

@[simp] theorem sub_re (z w : Amplitude α) : (z - w).re = z.re - w.re := rfl

@[simp] theorem sub_im (z w : Amplitude α) : (z - w).im = z.im - w.im := rfl

@[simp] theorem neg_re (z : Amplitude α) : (-z).re = -z.re := rfl

@[simp] theorem neg_im (z : Amplitude α) : (-z).im = -z.im := rfl

@[simp] theorem mul_re (z w : Amplitude α) : (z * w).re = z.re * w.re - z.im * w.im := rfl

@[simp] theorem mul_im (z w : Amplitude α) : (z * w).im = z.re * w.im + z.im * w.re := rfl

end Amplitude

end RotationCircuits
