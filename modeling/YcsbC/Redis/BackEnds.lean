import YcsbC.Redis.RedisDB

/-!
# Two back ends behind one interface

A run on a `RedisDB` and the same run on a `LockStlDB`. `RedisDB` answers `kOK` to every call that
writes, its `Insert` overwrites, and its `Read` fills in an empty value for an absent field;
`LockStlDB` reports conflicts and missing records, its `Insert` stops at the first conflict, and its
`Read` omits absent fields.

## Main definitions

* `Call.Fresh`, `Call.Clean`, `RecordMap.Along`: an `Insert` that meets no conflict, a `Delete` that
  finds its record, and runs of such calls.
* `Fields.present`, `RecordMap.padded`: what the two back ends read.
* `RedisServer.hashes`: a server.

## Main results

* `backEnds_agree`: what the back ends have in common.
-/

namespace YcsbC

/-! ### Calls on which the back ends differ -/

namespace Call

/-- An `Insert` names no field that is present. -/
def Fresh (m : RecordMap) : Call → Prop
  | insert _ key values => ∀ pair ∈ values, pair.1 ∉ (m.lookup key).getD ∅
  | _ => True

/-- An `Insert` names no field that is present, and a `Delete` finds its record. -/
def Clean (m : RecordMap) : Call → Prop
  | insert _ key values => ∀ pair ∈ values, pair.1 ∉ (m.lookup key).getD ∅
  | delete _ key => key ∈ m
  | _ => True

variable {m : RecordMap} {c : Call}

theorem Fresh.next_eq (h : c.Fresh m) : c.overwrite.next m = c.next m := by
  cases c with
  | insert table key values =>
    have hfresh : Fields.fresh values ((m.lookup key).getD ∅) = values :=
      List.takeWhile_eq_self_iff.2 fun pair hpair => decide_eq_true (h pair hpair)
    simp only [Call.overwrite, Call.next, hfresh]
  | _ => rfl

/-- `kOK` is the outcome of a clean call. -/
theorem Allows.ok_iff {out : Outcome} (h : c.Allows m out) (hwrite : c.IsWrite) :
    out.1 = .kOK ↔ c.Clean m := by
  cases c with
  | read table key fields result => exact absurd rfl (hwrite table key fields result)
  | update => exact iff_of_true h trivial
  | insert table key values =>
    have hstatus : out.1 = if ∃ pair ∈ values, pair.1 ∈ (m.lookup key).getD ∅ then
      .kErrorConflict else .kOK := h
    rw [hstatus]
    split_ifs with hconflict
    · obtain ⟨pair, hpair, hmem⟩ := hconflict
      exact iff_of_false nofun fun hclean => hclean pair hpair hmem
    · exact iff_of_true rfl fun pair hpair hmem => hconflict ⟨pair, hpair, hmem⟩
  | delete table key =>
    have hstatus : out.1 = if key ∈ m then .kOK else .kErrorNoData := h
    rw [hstatus]
    split_ifs with hmem
    · exact iff_of_true rfl hmem
    · exact iff_of_false nofun hmem

end Call

namespace RecordMap

/-- Each call of a run is `P` of the map that it finds. -/
def Along (P : RecordMap → Call → Prop) : RecordMap → List Call → Prop
  | _, [] => True
  | m, c :: calls => P m c ∧ Along P (c.next m) calls

variable {m : RecordMap} {calls : List Call}

/-- A run without conflicts leaves the map that it leaves with `Update`s for `Insert`s. -/
theorem Along.foldl_overwrite (h : Along (fun m c => c.Fresh m) m calls) :
    (calls.map Call.overwrite).foldl Call.next m = calls.foldl Call.next m := by
  induction calls generalizing m with
  | nil => rfl
  | cons c calls ih =>
    rw [List.map_cons, List.foldl_cons, List.foldl_cons, h.1.next_eq]
    exact ih h.2

theorem Permits.ok_iff {outs : List Outcome} (h : Permits m calls outs)
    (hwrite : ∀ c ∈ calls, c.IsWrite) :
    outs.map Prod.fst = calls.map (fun _ => Status.kOK) ↔ Along (fun m c => c.Clean m) m calls := by
  induction calls generalizing m outs with
  | nil =>
    obtain rfl : outs = [] := h
    exact iff_of_true rfl trivial
  | cons c calls ih =>
    obtain ⟨out, outs, rfl, hallows, hpermits⟩ := h
    obtain ⟨hc, hcalls⟩ := List.forall_mem_cons.1 hwrite
    rw [List.map_cons, List.map_cons, List.cons.injEq, hallows.ok_iff hc, ih hpermits hcalls]
    rfl

/-- What `RedisDB` reads: every requested field, an absent one with an empty value. -/
def padded (m : RecordMap) (key : Str) (fields : List Str) : List KVPair :=
  fields.map fun field => (field, (m.field key field).getD [])

end RecordMap

/-- What `LockStlDB` reads: the requested fields that are present. -/
def Fields.present (fs : Fields) (fields : List Str) : List KVPair :=
  fields.filterMap fun field => (fs.lookup field).map (field, ·)

theorem padded_eq_present_iff {m : RecordMap} {key : Str} {fs : Fields}
    (h : m.lookup key = some fs) (fields : List Str) :
    m.padded key fields = fs.present fields ↔ ∀ field ∈ fields, field ∈ fs := by
  constructor
  · intro heq field hfield
    have hmem : (field, (m.field key field).getD []) ∈ fs.present fields :=
      heq ▸ List.mem_map_of_mem hfield
    obtain ⟨field', -, hsome⟩ := List.mem_filterMap.1 hmem
    obtain ⟨str, hstr, hpair⟩ := Option.map_eq_some_iff.1 hsome
    obtain rfl : field' = field := congrArg Prod.fst hpair
    exact Finmap.mem_of_lookup_eq_some hstr
  · intro hall
    rw [Fields.present, RecordMap.padded, ← List.filterMap_eq_map]
    refine List.filterMap_congr fun field hfield => ?_
    obtain ⟨str, hstr⟩ := Finmap.mem_iff.1 (hall field hfield)
    rw [Function.comp_apply, RecordMap.field_of_lookup h, hstr]
    rfl

/-! ### A server -/

namespace RedisServer

/-- The pairs of a list of arguments. -/
def argumentPairs : List Str → Option (List KVPair)
  | [] => some []
  | [_] => none
  | field :: value :: args => (argumentPairs args).map ((field, value) :: ·)

theorem argumentPairs_pairArguments (values : List KVPair) :
    argumentPairs (pairArguments values) = some values := by
  induction values with
  | nil => rfl
  | cons pair values ih =>
    show (argumentPairs (pairArguments values)).map (pair :: ·) = _
    rw [ih, Option.map_some]

section Commands

variable (key : Str) (args : List Str) (h : Str → RedisHash)

/-- `HMSET`. -/
def hmset : RedisReply × (Str → RedisHash) :=
  match argumentPairs args with
  | some (pair :: values) =>
    (.status "OK".toList, Function.update h key (.set (pair :: values) (h key)))
  | _ => (.error "ERR wrong number of arguments".toList, h)

/-- `HMGET`. -/
def hmget : RedisReply × (Str → RedisHash) :=
  if args = [] then (.error "ERR wrong number of arguments".toList, h)
  else (.array (args.map fun field => (h key field).elim .nil .string), h)

/-- `DEL`. -/
def del : RedisReply × (Str → RedisHash) :=
  (.integer 1, Function.update h key fun _ => none)

/-- `WAIT`. -/
def wait : RedisReply × (Str → RedisHash) := (.integer 0, h)

end Commands

/-- The commands, by their names. -/
def command (name key : Str) (args : List Str) (h : Str → RedisHash) :
    RedisReply × (Str → RedisHash) :=
  if name = "HMSET".toList then hmset key args h
  else if name = "HMGET".toList then hmget key args h
  else if name = "DEL".toList then del key h
  else if name = "WAIT".toList then wait h
  else (.error "ERR unknown command".toList, h)

/-- A server that has hashes only, and of their commands those that `RedisDB` makes use of with a
list of fields. -/
def hashes : RedisServer (Str → RedisHash) where
  exec
    | name :: key :: args, h => command name key args h
    | _, h => (.error "ERR unknown command".toList, h)

section Commands

variable (key : Str) (args : List Str) (h : Str → RedisHash)

theorem command_hmset : command "HMSET".toList key args h = hmset key args h := by
  rw [command, if_pos rfl]

theorem command_hmget : command "HMGET".toList key args h = hmget key args h := by
  rw [command, if_neg (by decide), if_pos rfl]

theorem command_del : command "DEL".toList key args h = del key h := by
  rw [command, if_neg (by decide), if_neg (by decide), if_pos rfl]

theorem command_wait : command "WAIT".toList key args h = wait h := by
  rw [command, if_neg (by decide), if_neg (by decide), if_neg (by decide), if_pos rfl]

end Commands

theorem hashes_hashSemantics : hashes.HashSemantics id where
  hmset key values h := by
    show (command _ _ _ _).2 = _
    rw [command_hmset, hmset, argumentPairs_pairArguments]
    obtain _ | ⟨pair, values⟩ := values
    · exact (Function.update_eq_self key h).symm
    · rfl
  hmget key fields h hne := by
    show (command _ _ _ _).1 = _
    rw [command_hmget, hmget, if_neg hne]
    rfl
  hmget_hash key fields h := by
    show (command _ _ _ _).2 = _
    rw [command_hmget, hmget]
    split_ifs <;> rfl
  del key h := by
    show (command _ _ _ _).2 = _
    rw [command_del, del]
    rfl
  wait args h := by
    obtain _ | ⟨key, args⟩ := args
    · rfl
    · show (command _ _ _ _).2 = _
      rw [command_wait, wait]
      rfl

end RedisServer

/-! ### What the back ends have in common -/

/-- **Two back ends.** For every run of calls that write, from an empty store on each side:
`RedisDB` returns `kOK` from every call, and `LockStlDB` returns the same if and only if no `Insert`
meets a field that is present and every `Delete` finds its record. A `Read` of fields of a record
that is there then returns `kOK` from both; the one omits absent fields and the other pads them. If
no `Insert` met a field that was present, the lists are the same if and only if every requested
field is present. -/
theorem backEnds_agree {σ : Type} {server : RedisServer σ} {hash : σ → Str → RedisHash}
    (hserver : server.HashSemantics hash) {s₀ : σ} (hempty : ∀ key field, hash s₀ key field = none)
    (vprintf : Str → VaArg → Str) (slaves : ℤ) (order : IterationOrder VmpString) {table : Str}
    (htable : RedisDB.Sendable table) {calls : List Call}
    (hcalls : ∀ c ∈ calls, c.Sendable ∧ c.IsWrite ∧ c.table = table) :
    ∃ outs s, RedisDB.runCalls server vprintf slaves calls s₀ = some (outs, s) ∧
      outs.map Prod.fst = calls.map (fun _ => .kOK) ∧
      (outs.map Prod.fst =
          ((runCalls (LockStlDB order) calls).run Store.empty).1.map Prod.fst ↔
        RecordMap.Along (fun m c => c.Clean m) ∅ calls) ∧
      ∀ key fields fs, RedisDB.Sendable key → (∀ field ∈ fields, RedisDB.Sendable field) →
        fields ≠ [] → (RecordMap.after calls).lookup key = some fs →
          (((LockStlDB order).read table key (some fields) []).run
              ((runCalls (LockStlDB order) calls).run Store.empty).2).1 =
            (.kOK, fs.present fields) ∧
          (∃ s', RedisDB.call server vprintf slaves (.read table key (some fields) []) s =
            some ((.kOK, (RecordMap.after (calls.map Call.overwrite)).padded key fields), s')) ∧
          (RecordMap.Along (fun m c => c.Fresh m) ∅ calls →
            ((RecordMap.after (calls.map Call.overwrite)).padded key fields = fs.present fields ↔
              ∀ field ∈ fields, field ∈ fs)) := by
  obtain ⟨s, hrun, hredis⟩ := (RedisDB.denotes_empty hempty).run hserver vprintf slaves
    fun c hc => ⟨(hcalls c hc).1, (hcalls c hc).2.1⟩
  obtain ⟨hpermits, hlock⟩ := (Store.denotes_empty table).run order htable.nulFree
    fun c hc => ⟨(hcalls c hc).1.wellFormed, (hcalls c hc).2.2⟩
  have hok : (calls.map fun _ => ((.kOK, []) : Outcome)).map Prod.fst =
      calls.map fun _ => Status.kOK := by
    rw [List.map_map]
    rfl
  refine ⟨_, s, hrun, hok, ?_, fun key fields fs hkey hfields hne hfs => ⟨?_, ?_, fun hfresh => ?_⟩⟩
  · rw [hok, eq_comm]
    exact hpermits.ok_iff fun c hc => (hcalls c hc).2.1
  · have hread : (Call.read table key (some fields) []).WellFormed := by
      refine ⟨hkey.nulFree, by simp [Call.values], fun field hfield => ?_, by simp [Call.values]⟩
      exact (hfields field hfield).nulFree
    have hallows := (hlock.step order htable.nulFree hread rfl).1
    have hfs' : (calls.foldl Call.next ∅).lookup key = some fs := hfs
    simp only [Call.Allows, hfs'] at hallows
    exact Prod.ext hallows.1 hallows.2
  · obtain ⟨s', hcall, -⟩ := hredis.read hserver vprintf slaves table key hne []
    exact ⟨s', hcall⟩
  · rw [RecordMap.after, hfresh.foldl_overwrite]
    exact padded_eq_present_iff hfs fields

/-- A run without conflicts. -/
def cleanCalls : List Call := [
  .update "t".toList "u1".toList [("f0".toList, "a".toList)],
  .insert "t".toList "u1".toList [("f1".toList, "b".toList)],
  .insert "t".toList "u2".toList [("f0".toList, "c".toList)],
  .delete "t".toList "u2".toList]

/-- Both back ends return `kOK` from every call of it. A `Read` afterwards gives the same list when
the fields are there, and an absent field makes the difference. -/
theorem backEnds_agree_cleanCalls :
    ∃ outs s, RedisDB.runCalls RedisServer.hashes (fun _ _ => []) 0 cleanCalls (fun _ _ => none) =
        some (outs, s) ∧
      outs.map Prod.fst =
        ((runCalls (LockStlDB (.newestFirst _)) cleanCalls).run Store.empty).1.map Prod.fst ∧
      (((LockStlDB (.newestFirst _)).read "t".toList "u1".toList
          (some ["f1".toList, "f2".toList, "f0".toList]) []).run
            ((runCalls (LockStlDB (.newestFirst _)) cleanCalls).run Store.empty).2).1 =
        (.kOK, [("f1".toList, "b".toList), ("f0".toList, "a".toList)]) ∧
      (∃ s', RedisDB.call RedisServer.hashes (fun _ _ => []) 0 (.read "t".toList "u1".toList
          (some ["f1".toList, "f2".toList, "f0".toList]) []) s =
        some ((.kOK, [("f1".toList, "b".toList), ("f2".toList, []), ("f0".toList, "a".toList)]),
          s')) ∧
      ∃ s', RedisDB.call RedisServer.hashes (fun _ _ => []) 0 (.read "t".toList "u1".toList
          (some ["f1".toList, "f0".toList]) []) s =
        some ((((LockStlDB (.newestFirst _)).read "t".toList "u1".toList
          (some ["f1".toList, "f0".toList]) []).run
            ((runCalls (LockStlDB (.newestFirst _)) cleanCalls).run Store.empty).2).1, s') := by
  have hsendable : ∀ w ∈ ["t", "u1", "u2", "f0", "f1", "f2", "a", "b", "c"].map String.toList,
      RedisDB.Sendable w := by
    have hall : ∀ w ∈ ["t", "u1", "u2", "f0", "f1", "f2", "a", "b", "c"].map String.toList,
        Printable w ∧ w ≠ [] ∧ '%' ∉ w := by decide
    exact fun w hw => ⟨(hall w hw).1, (hall w hw).2.1, (hall w hw).2.2⟩
  have hcalls : ∀ c ∈ cleanCalls, c.Sendable ∧ c.IsWrite ∧ c.table = "t".toList := by
    intro c hc
    simp only [cleanCalls, List.mem_cons, List.not_mem_nil, or_false] at hc
    rcases hc with rfl | rfl | rfl | rfl
    all_goals exact ⟨⟨hsendable _ (by decide), by simp [Call.values, hsendable],
      by simp [Call.requested], by decide⟩, nofun, rfl⟩
  have hempty : ∀ key field, id (fun _ _ => none : Str → RedisHash) key field = none :=
    fun _ _ => rfl
  obtain ⟨outs, s, hrun, -, hstatuses, hread⟩ := backEnds_agree RedisServer.hashes_hashSemantics
    hempty (fun _ _ => []) 0 (.newestFirst _) (hsendable _ (by decide)) hcalls
  have hclean : RecordMap.Along (fun m c => c.Clean m) ∅ cleanCalls := by
    refine ⟨trivial, ?_, ?_, ?_, trivial⟩
    · show ∀ pair ∈ [("f1".toList, "b".toList)], pair.1 ∉ _
      decide
    · show ∀ pair ∈ [("f0".toList, "c".toList)], pair.1 ∉ _
      decide
    · exact Finmap.mem_insert.2 (.inl rfl)
  have hfresh : RecordMap.Along (fun m c => c.Fresh m) ∅ cleanCalls :=
    ⟨trivial, hclean.2.1, hclean.2.2.1, trivial, trivial⟩
  -- the fields of `u1`
  let fs : Fields := ((RecordMap.after cleanCalls).lookup "u1".toList).getD ∅
  have hfs : (RecordMap.after cleanCalls).lookup "u1".toList = some fs := by decide
  have hpresent : fs.present ["f1".toList, "f2".toList, "f0".toList] =
      [("f1".toList, "b".toList), ("f0".toList, "a".toList)] := by decide
  have hpadded : (RecordMap.after (cleanCalls.map Call.overwrite)).padded "u1".toList
      ["f1".toList, "f2".toList, "f0".toList] =
        [("f1".toList, "b".toList), ("f2".toList, []), ("f0".toList, "a".toList)] := by decide
  have hthere : ∀ field ∈ ["f1".toList, "f0".toList], field ∈ fs := by
    decide
  obtain ⟨hlock, hredis, -⟩ := hread "u1".toList ["f1".toList, "f2".toList, "f0".toList] fs
    (hsendable _ (by decide)) (by simp [hsendable]) (by decide) hfs
  obtain ⟨hlock', hredis', hsame⟩ := hread "u1".toList ["f1".toList, "f0".toList] fs
    (hsendable _ (by decide)) (by simp [hsendable]) (by decide) hfs
  rw [hpresent] at hlock
  rw [hpadded] at hredis
  rw [(hsame hfresh).2 hthere, ← hlock'] at hredis'
  exact ⟨outs, s, hrun, hstatuses.2 hclean, hlock, hredis, hredis'⟩

/-- A run that overwrites a field, deletes a record that is not there, reads a field that is absent,
and reads a missing record. -/
def mixedCalls : List Call := [
  .update "t".toList "u1".toList [("f0".toList, "a".toList)],
  .insert "t".toList "u1".toList [("f0".toList, "b".toList)],
  .delete "t".toList "u2".toList,
  .read "t".toList "u1".toList (some ["f0".toList, "f1".toList]) [],
  .read "t".toList "u2".toList (some ["f0".toList]) []]

/-- The back ends differ on it in statuses, values and absent fields. -/
theorem backEnds_differ :
    (RedisDB.runCalls RedisServer.hashes (fun _ _ => []) 0 mixedCalls fun _ _ => none).map
        Prod.fst =
      some [(.kOK, []), (.kOK, []), (.kOK, []),
        (.kOK, [("f0".toList, "b".toList), ("f1".toList, [])]),
        (.kOK, [("f0".toList, [])])] ∧
    ((runCalls (LockStlDB (.newestFirst _)) mixedCalls).run Store.empty).1 =
      [(.kOK, []), (.kErrorConflict, []), (.kErrorNoData, []),
        (.kOK, [("f0".toList, "a".toList)]), (.kErrorNoData, [])] :=
  ⟨rfl, by decide⟩

end YcsbC
