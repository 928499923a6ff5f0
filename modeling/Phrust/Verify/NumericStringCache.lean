import Phrust.Runtime.NumericString
import Phrust.Runtime.NumericText

/-!
# The cache of numeric-string classifications

A lookup answers with the classification of the first string that was looked up under its key since
the cache was last emptied. The key has the storage's address, the length and the fingerprint of the
bytes, and the fingerprint is not injective: two strings of one length that pass through one storage
can share the key.
-/

namespace Phrust
open Option
variable {F : Type} {ops : ParsedFloats F}

/-- The cache as a memo table for `classify`. -/
def classificationMemo (ops : ParsedFloats F) :
    Memo StoredString NumericStringCacheKey (NumericString F) where
  key := StoredString.cacheKey
  compute value := classify ops value.bytes

namespace ClassificationCache
variable {state : ClassificationCache F}

@[simp] theorem record_cache (state : ClassificationCache F)
    (count : NumericStringCacheStats → NumericStringCacheStats) :
    (state.record count).cache = state.cache := by
  rw [record]
  split <;> rfl

/-- All a lookup can do: answer from the table, or store what it computes, in an emptied table if the
limit is reached. -/
theorem classifyPhpString_cases (ops : ParsedFloats F) (state : ClassificationCache F)
    (value : StoredString) :
    (∃ classified after, state.classifyPhpString ops value = (classified, after, false) ∧
      state.cache.get value.cacheKey = some classified ∧ after.cache = state.cache) ∨
    state.cache.get value.cacheKey = none ∧
      ∃ after full, state.classifyPhpString ops value = (classify ops value.bytes, after, full) ∧
        after.cache = (value.cacheKey, classify ops value.bytes) :: (if full then [] else state.cache) := by
  simp only [classifyPhpString, record_cache]
  cases hget : state.cache.get value.cacheKey with
  | some classified => exact .inl ⟨classified, _, rfl, rfl, by simp only [record_cache]⟩
  | none => exact .inr ⟨rfl, _, _, rfl, by simp only [record_cache]⟩

end ClassificationCache

namespace StringMachine
variable {machine machine' : StringMachine F} {log : Log F}

theorem classifyPhpString_traces (ops : ParsedFloats F) (machine : StringMachine F) (value : StoredString) :
    (classificationMemo ops).Traces machine.classifier.cache
      (machine.classifyPhpString ops value).2.2
      (machine.classifyPhpString ops value).2.1.classifier.cache := by
  rcases machine.classifier.classifyPhpString_cases ops value with
    ⟨classified, after, hcall, hget, hcache⟩ | ⟨hget, after, full, hcall, hcache⟩
  · simp only [classifyPhpString, hcall, hcache]
    exact .hit hget (.nil _)
  simp only [classifyPhpString, hcall, hcache]
  cases full with
  | true => exact .emptied (.miss rfl (.nil _))
  | false => exact .miss hget (.nil _)

theorem step_traces (h : machine.step ops op = some (machine', log)) :
    (classificationMemo ops).Traces machine.classifier.cache log machine'.classifier.cache := by
  cases op with
  | fromBytes | clone | drop | bytesMut =>
    obtain ⟨heap, _, hmachine⟩ := map_eq_some_iff.mp h
    cases hmachine
    exact .nil _
  | classifyPhpString handle =>
    obtain ⟨value, _, hmachine⟩ := map_eq_some_iff.mp h
    cases hmachine
    exact machine.classifyPhpString_traces ops value
  | classifyArrayKey handle =>
    obtain ⟨value, _, hmachine⟩ := map_eq_some_iff.mp h
    rw [classifyArrayKey] at hmachine
    split at hmachine
    · cases hmachine
      exact machine.classifyPhpString_traces ops value
    · cases hmachine
      exact .nil _
  | resetCacheAndStats =>
    cases h
    exact .emptied (.nil _)

theorem run_traces (h : machine.run ops operations = some (machine', log)) :
    (classificationMemo ops).Traces machine.classifier.cache log machine'.classifier.cache := by
  induction operations generalizing machine log with
  | nil =>
    cases h
    exact .nil _
  | cons op rest ih =>
    obtain ⟨⟨next, first⟩, hstep, h⟩ := bind_eq_some_iff.mp h
    obtain ⟨⟨last, later⟩, hrest, h⟩ := bind_eq_some_iff.mp h
    cases h
    exact (step_traces hstep).append (ih hrest)

/-- In a run that starts with an empty cache, every lookup answers with the classification of the
bytes it is given exactly if no two strings with different classifications are looked up with one
storage address, one length and one fingerprint without the cache being emptied in between. -/
theorem run_answers_classify_iff (hcache : machine.classifier.cache = [])
    (h : machine.run ops operations = some (machine', log)) :
    (∀ value answer, .answered value answer ∈ log → answer = classify ops value.bytes) ↔
      (classificationMemo ops).Separates log := by
  have htraces := run_traces h
  rw [hcache] at htraces
  exact htraces.right_iff_separates

/-- A thread that has classified nothing yet. -/
def initial : StringMachine F := ⟨⟨[], []⟩, ⟨[], ⟨0, 0, 0, 0, 0⟩, false⟩⟩

def integralFloats : ParsedFloats (Option Int) := ⟨FloatOps.integral, Option.isSome⟩

/-- A string that is classified, overwritten in place and classified again. -/
def overwrite (before after : PhpString) : List StringOp :=
  [.fromBytes 0 4096 before, .classifyPhpString 0, .bytesMut 0 8192 after, .classifyPhpString 0]

/-- The two strings have different fingerprints, so both lookups answer with their own classification. -/
theorem run_answers_classify_iff_overwrite :
    ∃ (machine : StringMachine (Option Int)) (log : Log (Option Int)),
      initial.run integralFloats (overwrite (asciiBytes "12") (asciiBytes "x2")) = some (machine, log) ∧
        log = [.answered ⟨4096, asciiBytes "12"⟩ (classify integralFloats (asciiBytes "12")),
          .answered ⟨4096, asciiBytes "x2"⟩ (classify integralFloats (asciiBytes "x2"))] ∧
        (classificationMemo integralFloats).Separates log := by
  have hrun : (initial.run integralFloats (overwrite (asciiBytes "12") (asciiBytes "x2"))).map Prod.snd =
      some [.answered ⟨4096, asciiBytes "12"⟩ (classify integralFloats (asciiBytes "12")),
        .answered ⟨4096, asciiBytes "x2"⟩ (classify integralFloats (asciiBytes "x2"))] := by
    decide +kernel
  obtain ⟨⟨machine, log⟩, hrun, hlog⟩ := map_eq_some_iff.mp hrun
  refine ⟨machine, log, hrun, hlog, (run_answers_classify_iff rfl hrun).mp fun value answer hanswer => ?_⟩
  change log = _ at hlog
  rw [hlog] at hanswer
  rcases List.mem_pair.mp hanswer with heq | heq <;> cases heq <;> rfl

/-- The FNV-1a fingerprints of these two strings are equal: after the overwrite the second one, which
is not numeric, is still taken for the number 8 followed by text. -/
theorem not_run_answers_classify :
    ∃ (operations : List StringOp) (machine : StringMachine (Option Int)) (log : Log (Option Int))
      (value : StoredString) (answer : NumericString (Option Int)),
      initial.run integralFloats operations = some (machine, log) ∧
        .answered value answer ∈ log ∧ answer ≠ classify integralFloats value.bytes := by
  let before := asciiBytes "8yn0iYCKYHlIj4-BwPqk"
  let after := asciiBytes "GReLUrM4wMqfg9yzV3KQ"
  let answer : NumericString (Option Int) := ⟨.leadingNumeric, some (.int 8), .none, false⟩
  have hrun : (initial.run integralFloats (overwrite before after)).map Prod.snd =
      some [.answered ⟨4096, before⟩ answer, .answered ⟨4096, after⟩ answer] := by
    decide +kernel
  obtain ⟨⟨machine, log⟩, hrun, hlog⟩ := map_eq_some_iff.mp hrun
  refine ⟨overwrite before after, machine, log, ⟨4096, after⟩, answer, hrun, ?_, ?_⟩
  · change log = _ at hlog
    rw [hlog]
    exact .tail _ (.head _)
  · decide +kernel

end StringMachine
end Phrust
