import Mathlib.Algebra.Group.Nat.Defs
import Mathlib.Algebra.Ring.Int.Defs
import YcsbC.Foundation.Interleaving
import YcsbC.Core.DB
import YcsbC.Core.Generators

/-!
# The workload

`CoreWorkload` decides what the clients ask for: the keys, the fields and the values
(`core/core_workload.h`, `core/core_workload.cc`). It is shared by all clients, so each call of a
generator is one atomic step. The numbers of a property file are taken as already parsed.

## Main definitions

* `Properties`, `Draws`, `CoreWorkload.init`: the settings of a workload and its generators.
* `CoreWorkload.buildKeyName`, `nextSequenceKey`, `nextTransactionKey`: the keys.
* `CoreWorkload.buildValues`, `buildUpdate`: the values.

## Main results

* `CoreWorkload.run_buildValues`, `run_buildUpdate`: the fields that are named.
* `CoreWorkload.run_nextTransactionKey`: the keys that the rejection loop returns.
* `CoreWorkload.isSome_nextTransactionKey`: when it ends.
-/

namespace YcsbC

/-- `Operation`. -/
inductive Operation where
  | INSERT
  | READ
  | UPDATE
  | SCAN
  | READMODIFYWRITE
  deriving DecidableEq, Repr

/-- The properties that `CoreWorkload::Init` reads, without those of the random generators. -/
structure Properties where
  tableName : Str
  fieldCount : ℤ
  recordCount : ℤ
  insertStart : ℤ
  readAllFields : Bool
  writeAllFields : Bool
  orderedInserts : Bool

/-- The random generators of a workload, with `rand()`. -/
structure Draws where
  fieldLenGenerator : Stream' UInt64
  opChooser : Stream' Operation
  keyChooser : KeyChooser
  fieldChooser : Stream' UInt64
  scanLenChooser : Stream' UInt64
  rand : Stream' ℕ

/-- Generators that draw the same value again and again. -/
instance : Inhabited Draws :=
  ⟨.const 1, .const .READ, .uniform (.const 0), .const 0, .const 1, .const 0⟩

/-- `CoreWorkload`. -/
structure CoreWorkload where
  tableName : Str
  fieldCount : ℤ
  readAllFields : Bool
  writeAllFields : Bool
  draws : Draws
  keyGenerator : CounterGenerator
  insertKeySequence : CounterGenerator
  orderedInserts : Bool
  recordCount : UInt64

namespace CoreWorkload

/-- `CoreWorkload::Init`. -/
def init (p : Properties) (draws : Draws) : CoreWorkload where
  tableName := p.tableName
  fieldCount := p.fieldCount
  readAllFields := p.readAllFields
  writeAllFields := p.writeAllFields
  draws := draws
  keyGenerator := ⟨UInt64.ofInt p.insertStart⟩
  insertKeySequence := .set (UInt64.ofInt p.recordCount)
  orderedInserts := p.orderedInserts
  recordCount := UInt64.ofInt p.recordCount

/-! ### Keys -/

/-- The number that `BuildKeyName` prints. -/
def keyNumber (ordered : Bool) (recordCount keyNum : UInt64) : UInt64 :=
  (if ordered then keyNum else Utils.hash keyNum) % recordCount

/-- The key that is printed for a number. -/
def userKey (n : UInt64) : Str := "user".toList ++ Nat.toDigits 10 n.toNat

/-- `BuildKeyName`. -/
def buildKeyName (w : CoreWorkload) (keyNum : UInt64) : Str :=
  userKey (keyNumber w.orderedInserts w.recordCount keyNum)

/-- `key_generator_->Next()`. -/
def keyGeneratorNext : Program CoreWorkload UInt64 :=
  .atomic fun w => (w.keyGenerator.next.1, { w with keyGenerator := w.keyGenerator.next.2 })

/-- `key_chooser_->Next()`. -/
def keyChooserNext : Program CoreWorkload UInt64 :=
  .atomic fun w =>
    let r := w.draws.keyChooser.next w.insertKeySequence.last
    (r.1, { w with draws := { w.draws with keyChooser := r.2 } })

/-- `NextSequenceKey`. -/
def nextSequenceKey : Program CoreWorkload Str := do
  let keyNum ← keyGeneratorNext
  .atomic fun w => (w.buildKeyName keyNum, w)

/-- `NextTransactionKey`: at most `fuel` rounds of the rejection loop. -/
def nextTransactionKey : ℕ → Program CoreWorkload (Option Str)
  | 0 => pure none
  | fuel + 1 => do
    let keyNum ← keyChooserNext
    let last ← .atomic fun w => (w.insertKeySequence.last, w)
    if keyNum > last then nextTransactionKey fuel
    else .atomic fun w => (some (w.buildKeyName keyNum), w)

/-! ### Operations, fields and values -/

/-- `NextTable`. -/
def nextTable : Program CoreWorkload Str := .atomic fun w => (w.tableName, w)

/-- `NextOperation`. -/
def nextOperation : Program CoreWorkload Operation :=
  .atomic fun w => (w.draws.opChooser.head,
    { w with draws := { w.draws with opChooser := w.draws.opChooser.tail } })

/-- The name of a field: `"field"` and a number. -/
def fieldName (n : ℕ) : Str := "field".toList ++ Nat.toDigits 10 n

/-- `NextFieldName`. -/
def nextFieldName : Program CoreWorkload Str :=
  .atomic fun w => (fieldName w.draws.fieldChooser.head.toNat,
    { w with draws := { w.draws with fieldChooser := w.draws.fieldChooser.tail } })

/-- `NextScanLength`, converted to the `int` of `TransactionScan`. -/
def nextScanLength : Program CoreWorkload ℤ :=
  .atomic fun w => (Int.bmod w.draws.scanLenChooser.head.toNat (2 ^ 32),
    { w with draws := { w.draws with scanLenChooser := w.draws.scanLenChooser.tail } })

/-- `field_len_generator_->Next()`. -/
def fieldLenGeneratorNext : Program CoreWorkload UInt64 :=
  .atomic fun w => (w.draws.fieldLenGenerator.head,
    { w with draws := { w.draws with fieldLenGenerator := w.draws.fieldLenGenerator.tail } })

/-- `RandomPrintChar`. -/
def randomPrintChar : Program CoreWorkload Char :=
  .atomic fun w => (Utils.randomPrintChar w.draws.rand.head,
    { w with draws := { w.draws with rand := w.draws.rand.tail } })

/-- The value of a field: one random character, repeated. -/
def nextValue : Program CoreWorkload Str := do
  let len ← fieldLenGeneratorNext
  let c ← randomPrintChar
  pure (List.replicate len.toNat c)

/-- The loop of `BuildValues`. -/
def buildFields : List ℕ → Program CoreWorkload (List KVPair)
  | [] => pure []
  | i :: is => do
    let str ← nextValue
    let values ← buildFields is
    pure ((fieldName i, str) :: values)

/-- `BuildValues`. -/
def buildValues : Program CoreWorkload (List KVPair) := do
  let fieldCount ← .atomic fun w => (w.fieldCount, w)
  buildFields (List.range fieldCount.toNat)

/-- `BuildUpdate`. -/
def buildUpdate : Program CoreWorkload (List KVPair) := do
  let name ← nextFieldName
  let str ← nextValue
  pure [(name, str)]

/-! ### Runs -/

/-- The workload after some draws: the settings and the counters are the same. -/
def Drawn (w w' : CoreWorkload) : Prop := ∃ draws, w' = { w with draws := draws }

theorem Drawn.refl (w : CoreWorkload) : w.Drawn w := ⟨w.draws, rfl⟩

/-- The workload after a number has been taken from `key_generator_`. -/
def numberTaken (w : CoreWorkload) : CoreWorkload :=
  { w with keyGenerator := w.keyGenerator.next.2 }

theorem run_nextSequenceKey (w : CoreWorkload) :
    nextSequenceKey.run w = (w.buildKeyName w.keyGenerator.counter, w.numberTaken) :=
  rfl

theorem run_nextValue (w : CoreWorkload) :
    (nextValue.run w).2 = { w with draws := { w.draws with
      fieldLenGenerator := w.draws.fieldLenGenerator.tail, rand := w.draws.rand.tail } } :=
  rfl

/-- `BuildValues` names the fields in order; it draws lengths and characters only. -/
theorem run_buildFields (is : List ℕ) (w : CoreWorkload) :
    ((buildFields is).run w).1.map Prod.fst = is.map fieldName ∧
      ∃ lens chars, ((buildFields is).run w).2 = { w with draws := { w.draws with
        fieldLenGenerator := lens, rand := chars } } := by
  induction is generalizing w with
  | nil => exact ⟨rfl, w.draws.fieldLenGenerator, w.draws.rand, rfl⟩
  | cons i is ih =>
    obtain ⟨hnames, lens, chars, hw⟩ := ih (nextValue.run w).2
    simp only [buildFields, Program.run_bind, Program.run_pure, List.map_cons]
    exact ⟨by rw [hnames], lens, chars, by rw [hw, run_nextValue]⟩

theorem run_buildValues (w : CoreWorkload) :
    (buildValues.run w).1.map Prod.fst = (List.range w.fieldCount.toNat).map fieldName ∧
      ∃ lens chars, (buildValues.run w).2 = { w with draws := { w.draws with
        fieldLenGenerator := lens, rand := chars } } :=
  run_buildFields _ w

/-- `BuildUpdate` names the field that the field chooser draws. -/
theorem run_buildUpdate (w : CoreWorkload) :
    (buildUpdate.run w).1.map Prod.fst = [fieldName w.draws.fieldChooser.head.toNat] ∧
      ∃ lens chars, (buildUpdate.run w).2 = { w with draws := { w.draws with
        fieldChooser := w.draws.fieldChooser.tail, fieldLenGenerator := lens, rand := chars } } :=
  ⟨rfl, _, _, rfl⟩

/-- The workload after one draw of a key. -/
def keyDrawn (w : CoreWorkload) : CoreWorkload :=
  { w with draws := { w.draws with
    keyChooser := (w.draws.keyChooser.next w.insertKeySequence.last).2 } }

/-- One round of the rejection loop. -/
theorem run_nextTransactionKey_succ (fuel : ℕ) (w : CoreWorkload) :
    (nextTransactionKey (fuel + 1)).run w =
      if w.draws.keyChooser.get w.insertKeySequence.last 0 > w.insertKeySequence.last then
        (nextTransactionKey fuel).run w.keyDrawn
      else
        (some (w.buildKeyName (w.draws.keyChooser.get w.insertKeySequence.last 0)),
          w.keyDrawn) := by
  rw [← KeyChooser.next_fst]
  generalize hkey : (w.draws.keyChooser.next w.insertKeySequence.last).1 = keyNum
  have hround : (nextTransactionKey (fuel + 1)).run w =
      (if keyNum > w.insertKeySequence.last then nextTransactionKey fuel
        else .atomic fun w => (some (w.buildKeyName keyNum), w)).run w.keyDrawn := by
    rw [← hkey]
    rfl
  rw [hround]
  split_ifs <;> rfl

/-- The rejection loop draws keys only. When it ends, its key is that of a number up to `Last()`; it
ends as soon as such a number is drawn. -/
theorem run_nextTransactionKey (fuel : ℕ) (w : CoreWorkload) :
    (∃ chooser, ((nextTransactionKey fuel).run w).2 =
        { w with draws := { w.draws with keyChooser := chooser } }) ∧
      (∀ key, ((nextTransactionKey fuel).run w).1 = some key →
        ∃ keyNum, keyNum ≤ w.insertKeySequence.last ∧ key = w.buildKeyName keyNum) ∧
      (∀ i < fuel, w.draws.keyChooser.get w.insertKeySequence.last i ≤ w.insertKeySequence.last →
        ((nextTransactionKey fuel).run w).1.isSome) := by
  induction fuel generalizing w with
  | zero =>
    refine ⟨⟨w.draws.keyChooser, rfl⟩, fun key hkey => ?_, fun i hi => absurd hi i.not_lt_zero⟩
    cases hkey
  | succ fuel ih =>
    rw [run_nextTransactionKey_succ]
    split_ifs with hlast
    · obtain ⟨⟨chooser, hw⟩, hkey, hends⟩ := ih w.keyDrawn
      refine ⟨⟨chooser, hw⟩, hkey, fun i hi haccept => ?_⟩
      cases i with
      | zero => exact absurd hlast (UInt64.not_lt.2 haccept)
      | succ i =>
        refine hends i (by omega) ?_
        rwa [← KeyChooser.get_next] at haccept
    · exact ⟨⟨_, rfl⟩, fun key hkey => ⟨_, UInt64.not_lt.1 hlast, (Option.some.inj hkey).symm⟩,
        fun _ _ _ => rfl⟩

/-- The rejection loop ends within `fuel` rounds iff one of the first `fuel` numbers that are drawn
is at most `Last()`. -/
theorem isSome_nextTransactionKey (fuel : ℕ) (w : CoreWorkload) :
    ((nextTransactionKey fuel).run w).1.isSome ↔
      ∃ i < fuel, w.draws.keyChooser.get w.insertKeySequence.last i ≤ w.insertKeySequence.last := by
  refine ⟨fun h => ?_, fun ⟨i, hi, haccept⟩ => (run_nextTransactionKey fuel w).2.2 i hi haccept⟩
  induction fuel generalizing w with
  | zero => exact absurd h Bool.false_ne_true
  | succ fuel ih =>
    rw [run_nextTransactionKey_succ] at h
    split_ifs at h with hlast
    · obtain ⟨i, hi, haccept⟩ := ih w.keyDrawn h
      refine ⟨i + 1, by omega, ?_⟩
      rwa [← KeyChooser.get_next]
    · exact ⟨0, fuel.succ_pos, UInt64.not_lt.1 hlast⟩

/-! ### Settings -/

end CoreWorkload

/-- The key of a number under the settings `p`. -/
def Properties.keyName (p : Properties) (keyNum : UInt64) : Str :=
  CoreWorkload.userKey
    (CoreWorkload.keyNumber p.orderedInserts (UInt64.ofInt p.recordCount) keyNum)

/-- The ranges of the numbers that `std::stoi` returns. -/
structure Properties.InRange (p : Properties) : Prop where
  fieldCount : -2 ^ 31 ≤ p.fieldCount ∧ p.fieldCount < 2 ^ 31
  recordCount : -2 ^ 31 ≤ p.recordCount ∧ p.recordCount < 2 ^ 31
  insertStart : -2 ^ 31 ≤ p.insertStart ∧ p.insertStart < 2 ^ 31

namespace CoreWorkload

/-- A workload that `Init` has set up with `p`, after any draws and any calls of
`NextSequenceKey`. -/
def Configured (p : Properties) (w : CoreWorkload) : Prop :=
  ∃ draws key, w = { init p draws with keyGenerator := key }

variable {p : Properties} {w w' : CoreWorkload}

theorem configured_init (p : Properties) (draws : Draws) : Configured p (init p draws) :=
  ⟨draws, _, rfl⟩

theorem Configured.drawn (h : Configured p w) (hw : w.Drawn w') : Configured p w' := by
  obtain ⟨draws, key, rfl⟩ := h
  obtain ⟨draws', rfl⟩ := hw
  exact ⟨draws', key, rfl⟩

theorem Configured.numberTaken (h : Configured p w) : Configured p w.numberTaken := by
  obtain ⟨draws, key, rfl⟩ := h
  exact ⟨draws, _, rfl⟩

theorem Configured.buildKeyName (h : Configured p w) (keyNum : UInt64) :
    w.buildKeyName keyNum = p.keyName keyNum := by
  obtain ⟨draws, key, rfl⟩ := h
  rfl

theorem Configured.last (h : Configured p w) :
    w.insertKeySequence.last = UInt64.ofInt p.recordCount - 1 := by
  obtain ⟨draws, key, rfl⟩ := h
  rfl

theorem Configured.tableName (h : Configured p w) : w.tableName = p.tableName := by
  obtain ⟨draws, key, rfl⟩ := h
  rfl

theorem Configured.fieldCount (h : Configured p w) : w.fieldCount = p.fieldCount := by
  obtain ⟨draws, key, rfl⟩ := h
  rfl

/-- The fields that `BuildValues` names under the settings `p`. -/
theorem Configured.names_buildValues (h : Configured p w) :
    (buildValues.run w).1.map Prod.fst = (List.range p.fieldCount.toNat).map fieldName := by
  rw [← h.fieldCount]
  exact (run_buildValues w).1

theorem stepsBy_nextValue : nextValue.StepsBy Drawn :=
  .bind (Program.stepsBy_atomic fun _ => ⟨_, rfl⟩) fun _ =>
    .bind (Program.stepsBy_atomic fun _ => ⟨_, rfl⟩) fun _ => Program.stepsBy_pure _

theorem stepsBy_buildFields (is : List ℕ) : (buildFields is).StepsBy Drawn := by
  induction is with
  | nil => exact Program.stepsBy_pure _
  | cons i is ih => exact stepsBy_nextValue.bind fun _ => ih.bind fun _ => Program.stepsBy_pure _

/-- `BuildValues` draws values, whatever else the workload is used for in the meantime. -/
theorem stepsBy_buildValues : buildValues.StepsBy Drawn :=
  .bind (Program.stepsBy_atomic Drawn.refl) fun _ => stepsBy_buildFields _

/-! ### Different numbers have different names -/

theorem toDigits_injective : Function.Injective (Nat.toDigits 10) := fun m n h => by
  have := congrArg (Nat.ofDigitChars 10 · 0) h
  simpa only [Nat.ofDigitChars_ten_toDigits] using this

theorem fieldName_injective : Function.Injective fieldName := fun _ _ h =>
  toDigits_injective (List.append_cancel_left h)

theorem userKey_injective : Function.Injective userKey := fun _ _ h =>
  UInt64.toNat_inj.1 (toDigits_injective (List.append_cancel_left h))

theorem nulFree_toDigits (n : ℕ) : NulFree (Nat.toDigits 10 n) := fun hmem => by
  have hdigit := Nat.isDigit_of_mem_toDigits (by omega) (by omega) hmem
  exact absurd hdigit (by decide)

theorem nulFree_userKey (n : UInt64) : NulFree (userKey n) :=
  nulFree_append.2 ⟨by decide, nulFree_toDigits n.toNat⟩

theorem nulFree_fieldName (n : ℕ) : NulFree (fieldName n) :=
  nulFree_append.2 ⟨by decide, nulFree_toDigits n⟩

end CoreWorkload

end YcsbC
