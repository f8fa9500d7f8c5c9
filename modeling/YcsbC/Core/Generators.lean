import Mathlib.Data.Stream.Defs
import Mathlib.Tactic.Common

/-!
# Hashes and generators

The hash of a key number and the generators that a workload draws from (`core/utils.h`,
`core/counter_generator.h`, `core/generator.h`). A random generator is the stream of the values
that its calls of `Next` return, so a statement about every stream is a statement about every
random draw. The generator for the request distribution `latest` also reads the counter of
inserted keys.

## Main definitions

* `Utils.fnvHash64`, `Utils.fnvHash32`, `Utils.hash`: `FNVHash64`, `FNVHash32` and `Hash`.
* `CounterGenerator`: the counters that hand out key numbers.
* `KeyChooser`: the generators of the three request distributions.
-/

namespace YcsbC

namespace Utils

def kFNVOffsetBasis64 : UInt64 := 0xCBF29CE484222325

def kFNVPrime64 : UInt64 := 1099511628211

/-- The loop of `FNVHash64`: one octet of `val` after another. -/
def fnvHash64Loop : ℕ → UInt64 → UInt64 → UInt64
  | 0, _, hash => hash
  | i + 1, val, hash => fnvHash64Loop i (val >>> 8) ((hash ^^^ (val &&& 0x00ff)) * kFNVPrime64)

/-- `FNVHash64`. -/
def fnvHash64 (val : UInt64) : UInt64 := fnvHash64Loop 8 val kFNVOffsetBasis64

def kFNVOffsetBasis32 : UInt32 := 2166136261

def kFNVPrime32 : UInt32 := 16777619

/-- The loop of `FNVHash32`: one octet of `val` after another. -/
def fnvHash32Loop : ℕ → UInt32 → UInt32 → UInt32
  | 0, _, hash => hash
  | i + 1, val, hash => fnvHash32Loop i (val >>> 8) ((hash ^^^ (val &&& 0xff)) * kFNVPrime32)

/-- `FNVHash32`. -/
def fnvHash32 (val : UInt32) : UInt32 := fnvHash32Loop 4 val kFNVOffsetBasis32

/-- `Hash`: the argument is cut to 32 bits and the result widened again. -/
def hash (val : UInt64) : UInt64 := (fnvHash32 val.toUInt32).toUInt64

/-- `RandomPrintChar`, for the value that `rand()` returns. -/
def randomPrintChar (rand : ℕ) : Char := Char.ofNat (rand % 94 + 33)

end Utils

/-- `CounterGenerator`. -/
structure CounterGenerator where
  counter : UInt64

namespace CounterGenerator

/-- `CounterGenerator::Next`: the number that is handed out and the counter afterwards. -/
def next (g : CounterGenerator) : UInt64 × CounterGenerator := (g.counter, ⟨g.counter + 1⟩)

/-- `CounterGenerator::Last`. -/
def last (g : CounterGenerator) : UInt64 := g.counter - 1

/-- `CounterGenerator::Set`. -/
def set (start : UInt64) : CounterGenerator := ⟨start⟩

end CounterGenerator

/-- The generator of the key numbers for transactions: a `UniformGenerator` or a
`ScrambledZipfianGenerator` with the values that they return, or a `SkewedLatestGenerator` with the
values that its `zipfian_` returns. -/
inductive KeyChooser where
  | uniform (draws : Stream' UInt64)
  | zipfian (draws : Stream' UInt64)
  | latest (draws : Stream' UInt64)

namespace KeyChooser

/-- `Next`, where `last` is the value of `basis_.Last()`. -/
def next (last : UInt64) : KeyChooser → UInt64 × KeyChooser
  | uniform draws => (draws.head, uniform draws.tail)
  | zipfian draws => (draws.head, zipfian draws.tail)
  | latest draws => (last - draws.head, latest draws.tail)

/-- The value of the `i`-th call of `Next` from now on, while `basis_.Last()` stays `last`. -/
def get (last : UInt64) : KeyChooser → ℕ → UInt64
  | uniform draws, i => draws.get i
  | zipfian draws, i => draws.get i
  | latest draws, i => last - draws.get i

theorem next_fst (last : UInt64) (c : KeyChooser) : (c.next last).1 = c.get last 0 := by
  cases c <;> rfl

theorem get_next (last : UInt64) (c : KeyChooser) (i : ℕ) :
    (c.next last).2.get last i = c.get last (i + 1) := by
  cases c <;> rfl

end KeyChooser

end YcsbC
