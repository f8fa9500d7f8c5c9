import Mathlib.Logic.Function.Basic
import YcsbC.Db.RecordMap
import YcsbC.Redis.Connection
import YcsbC.Redis.Reader

/-!
# RedisDB on a server

A client that is alone on its connection: the server carries out its commands in order, and their
replies are taken in order. `RedisDB` returns `kOK` from every call (`db/redis_db.cc`,
`db/redis_db.h`); it looks at the reply of a `Read` only.

## Main definitions

* `RedisServer`: the server, of which only hash semantics are supposed
  (`RedisServer.HashSemantics`).
* `RedisServer.serve`: the calls of hiredis on the server.
* `RedisDB.call`, `RedisDB.runCalls`: the calls of a client.
* `RedisDB.Denotes`: the map of records that the hashes of the server stand for.

## Main results

* `RedisDB.Denotes.step`: a call that writes is a step of the map, an `Insert` that of an `Update`.
* `RedisDB.Denotes.read`: what a `Read` returns.
-/

namespace YcsbC

/-! ### The server -/

/-- A Redis server with states in `σ`: it carries out a command. -/
structure RedisServer (σ : Type) where
  exec : List Str → σ → RedisReply × σ

/-- The hash of one key: what its fields hold. -/
abbrev RedisHash := Str → Option Str

/-- Set fields one after the other. -/
def RedisHash.set (values : List KVPair) (h : RedisHash) : RedisHash :=
  values.foldl (fun h pair => Function.update h pair.1 (some pair.2)) h

namespace RedisServer

variable {σ : Type}

/-- The arguments of a command after its name and key. -/
def pairArguments (values : List KVPair) : List Str := values.flatMap fun p => [p.1, p.2]

/-- The semantics of the commands on hashes. `hash s key` is the hash at a key; `HMSET` without
pairs is an error and sets nothing. -/
structure HashSemantics (server : RedisServer σ) (hash : σ → Str → RedisHash) : Prop where
  hmset : ∀ key values s,
    hash (server.exec ("HMSET".toList :: key :: pairArguments values) s).2 =
      Function.update (hash s) key (.set values (hash s key))
  hmget : ∀ key fields s, fields ≠ [] →
    (server.exec ("HMGET".toList :: key :: fields) s).1 =
      .array (fields.map fun field => (hash s key field).elim .nil .string)
  hmget_hash : ∀ key fields s,
    hash (server.exec ("HMGET".toList :: key :: fields) s).2 = hash s
  del : ∀ key s,
    hash (server.exec ["DEL".toList, key] s).2 = Function.update (hash s) key fun _ => none
  wait : ∀ args s, hash (server.exec ("WAIT".toList :: args) s).2 = hash s

/-- The calls of hiredis by a client that is alone: the server answers the commands in order, and a
format that is not right ends the process. The result is the replies that are taken. -/
def serve (server : RedisServer σ) :
    List HiredisCall → List RedisReply → σ → Option (List RedisReply × σ)
  | [], _, s => some ([], s)
  | .append (.ok argv _) :: ops, pending, s =>
    server.serve ops (pending ++ [(server.exec argv s).1]) (server.exec argv s).2
  | .getReply :: ops, reply :: pending, s =>
    (server.serve ops pending s).map fun p => (reply :: p.1, p.2)
  | .command (.ok argv _) :: ops, pending, s =>
    match pending ++ [(server.exec argv s).1] with
    | reply :: pending =>
      (server.serve ops pending (server.exec argv s).2).map fun p => (reply :: p.1, p.2)
    | [] => none
  | _, _, _ => none

/-- `RedisClient::Command` carries out its command. -/
theorem serve_command {server : RedisServer σ} {hash : σ → Str → RedisHash}
    (hserver : server.HashSemantics hash) {vprintf : Str → VaArg → Str} (slaves : ℤ) {cmd : Str}
    {argv : List Str} (hf : redisvFormatCommand vprintf cmd [] = .ok argv []) (s : σ) :
    ∃ replies s', server.serve (RedisClient.command vprintf slaves cmd) [] s = some (replies, s') ∧
      hash s' = hash (server.exec argv s).2 := by
  have hwait : redisvFormatCommand vprintf "WAIT %d %d".toList [.int slaves, .int 0] =
      .ok ["WAIT".toList, vprintf "%d".toList (.int slaves), vprintf "%d".toList (.int 0)] [] :=
    rfl
  rw [RedisClient.command, hf, hwait]
  split_ifs
  · exact ⟨_, _, rfl, hserver.wait _ _⟩
  · exact ⟨_, _, rfl, rfl⟩

end RedisServer

/-! ### The calls of a client -/

/-- The call that `RedisDB` gets; it does not look at the table. -/
def Call.redis : Call → RedisCall
  | read _ key fields _ => .read key fields
  | update _ key values => .update key values
  | insert _ key values => .insert key values
  | delete _ key => .delete key

namespace RedisDB

/-- `string(value ? value : "")`. -/
def replyString (reply : RedisReply) : Str := (reply.str.map cStr).getD []

/-- The pairs in a reply to `HGETALL`. -/
def replyPairs : List RedisReply → List KVPair
  | field :: value :: elements =>
    (replyString field, replyString value) :: replyPairs elements
  | _ => []

/-- What `Read` makes of its reply, unless an assertion fails. -/
def readReply (fields : Option (List Str)) (result : List KVPair) : RedisReply → Option Outcome
  | .array elements =>
    match fields with
    | some fields =>
      if fields.length = elements.length then
        some (.kOK, result ++ List.zipWith (fun field e => (field, replyString e)) fields elements)
      else none
    | none => some (.kOK, result ++ replyPairs elements)
  | _ => none

section Calls

variable {σ : Type} (server : RedisServer σ) (vprintf : Str → VaArg → Str) (slaves : ℤ)

/-- A call of a client, with the new state of the server. -/
def call (c : Call) (s : σ) : Option (Outcome × σ) :=
  (server.serve (c.redis.hiredis vprintf slaves) [] s).bind fun p =>
    match c, p.1 with
    | .read _ _ fields result, reply :: _ => (readReply fields result reply).map (·, p.2)
    | .read _ _ _ result, [] => some ((.kOK, result), p.2)
    | _, _ => some ((.kOK, []), p.2)

/-- The calls of a run, one after the other, with their outcomes. -/
def runCalls : List Call → σ → Option (List Outcome × σ)
  | [], s => some ([], s)
  | c :: calls, s => do
    let (out, s) ← call server vprintf slaves c s
    let (outs, s) ← runCalls calls s
    pure (out :: outs, s)

end Calls

/-! ### The map that the hashes stand for -/

/-- A string that is sent as it is. -/
structure Sendable (s : Str) : Prop where
  printable : Printable s
  ne_nil : s ≠ []
  no_percent : '%' ∉ s

theorem Sendable.nulFree {s : Str} (h : Sendable s) : NulFree s := h.printable.plain.2

/-- Such strings, joined, are formatted into themselves. -/
theorem formatCommand_of_sendable {vprintf : Str → VaArg → Str} {ws : List Str}
    (hws : ∀ w ∈ ws, Sendable w) (hne : ws ≠ []) :
    redisvFormatCommand vprintf ([' '].intercalate ws) [] = .ok ws [] := by
  have hpercent : '%' ∉ [' '].intercalate ws :=
    not_mem_intercalate (by decide) fun w hw => (hws w hw).no_percent
  exact (formatCommand_intercalate_iff (fun w hw => (hws w hw).printable.plain) hne).2
    ⟨fun w hw => (hws w hw).ne_nil, fun hmem => hpercent (List.mem_of_mem_dropLast hmem)⟩

end RedisDB

namespace Call

/-- The call writes. -/
def IsWrite (c : Call) : Prop := ∀ table key fields result, c ≠ read table key fields result

/-- A call whose strings are sent as they are and whose list of values names no field twice. -/
structure Sendable (c : Call) : Prop where
  key : RedisDB.Sendable c.key
  values : ∀ pair ∈ c.values, RedisDB.Sendable pair.1 ∧ RedisDB.Sendable pair.2
  requested : ∀ field ∈ c.requested, RedisDB.Sendable field
  names_nodup : (c.values.map Prod.fst).Nodup

theorem Sendable.wellFormed {c : Call} (h : c.Sendable) : c.WellFormed where
  key_nulFree := h.key.nulFree
  values_nulFree pair hp := ⟨(h.values pair hp).1.nulFree, (h.values pair hp).2.nulFree⟩
  requested_nulFree field hf := (h.requested field hf).nulFree
  names_nodup := h.names_nodup

/-- `RedisDB::Insert` is `RedisDB::Update`. -/
def overwrite : Call → Call
  | insert table key values => update table key values
  | c => c

end Call

/-- The value of a field of a record. -/
def RecordMap.field (m : RecordMap) (key field : Str) : Option Str :=
  (m.lookup key).bind fun fs => fs.lookup field

namespace RecordMap

variable {m : RecordMap} {key field : Str}

theorem field_eq : m.field key field = ((m.lookup key).getD ∅).lookup field := by
  rw [RecordMap.field]
  cases m.lookup key with
  | none =>
    show none = Finmap.lookup field (∅ : Fields)
    rw [Finmap.lookup_empty]
  | some fs => rfl

theorem field_of_lookup {fs : Fields} (h : m.lookup key = some fs) :
    m.field key field = fs.lookup field := by
  rw [RecordMap.field, h]
  rfl

theorem field_insert_self (fs : Fields) :
    RecordMap.field (m.insert key fs) key field = fs.lookup field :=
  field_of_lookup (Finmap.lookup_insert m)

theorem field_insert_of_ne (fs : Fields) {key' : Str} (h : key' ≠ key) :
    RecordMap.field (m.insert key fs) key' field = m.field key' field := by
  rw [RecordMap.field, RecordMap.field, Finmap.lookup_insert_of_ne m h]

end RecordMap

namespace Fields

theorem lookup_put (values : List KVPair) {fs : Fields} {h : RedisHash}
    (hfs : ∀ field, h field = fs.lookup field) (field : Str) :
    h.set values field = (fs.put values).lookup field := by
  induction values generalizing fs h with
  | nil => exact hfs field
  | cons pair values ih =>
    have hfirst : ∀ f, Function.update h pair.1 (some pair.2) f =
        (fs.insert pair.1 pair.2).lookup f := fun f => by
      by_cases hf : f = pair.1
      · rw [hf, Function.update_self, Finmap.lookup_insert]
      · rw [Function.update_of_ne hf, Finmap.lookup_insert_of_ne _ hf, hfs]
    exact ih hfirst

/-- A value that is there after `put` was there before or has been put. -/
theorem mem_of_lookup_put {values : List KVPair} {fs : Fields} {field str : Str}
    (h : (fs.put values).lookup field = some str) :
    fs.lookup field = some str ∨ ∃ pair ∈ values, pair.2 = str := by
  induction values generalizing fs with
  | nil => exact .inl h
  | cons pair values ih =>
    have hrest : (Fields.put values (fs.insert pair.1 pair.2)).lookup field = some str := h
    rcases ih hrest with hlookup | ⟨p, hp, hstr⟩
    · by_cases hf : field = pair.1
      · rw [hf, Finmap.lookup_insert] at hlookup
        exact .inr ⟨pair, List.mem_cons_self, Option.some.inj hlookup⟩
      · rw [Finmap.lookup_insert_of_ne _ hf] at hlookup
        exact .inl hlookup
    · exact .inr ⟨p, List.mem_cons_of_mem _ hp, hstr⟩

end Fields

namespace RedisDB

variable {σ : Type} {server : RedisServer σ} {hash : σ → Str → RedisHash}
  {vprintf : Str → VaArg → Str} {slaves : ℤ} {s : σ} {m : RecordMap}

/-- The hashes of the server stand for a map of records whose values have no NUL. A record without
fields is as good as none. -/
structure Denotes (hash : σ → Str → RedisHash) (s : σ) (m : RecordMap) : Prop where
  field : ∀ key field, hash s key field = m.field key field
  nulFree : ∀ key field str, m.field key field = some str → NulFree str

theorem denotes_empty (h : ∀ key field, hash s key field = none) : Denotes hash s ∅ where
  field key field := by
    rw [h, RecordMap.field, Finmap.lookup_empty]
    rfl
  nulFree key field str hstr := by
    rw [RecordMap.field, Finmap.lookup_empty] at hstr
    cases hstr

theorem Denotes.hmset (h : Denotes hash s m) {s' : σ} {key : Str} {values : List KVPair}
    (hvalues : ∀ pair ∈ values, NulFree pair.2)
    (hs' : hash s' = Function.update (hash s) key (.set values (hash s key))) :
    Denotes hash s' (m.insert key (((m.lookup key).getD ∅).put values)) := by
  have hkey : ∀ field, hash s key field = ((m.lookup key).getD ∅).lookup field := fun field => by
    rw [h.field, RecordMap.field_eq]
  refine ⟨fun key' field => ?_, fun key' field str hstr => ?_⟩
  · rw [hs']
    by_cases hne : key' = key
    · rw [hne, Function.update_self, RecordMap.field_insert_self]
      exact Fields.lookup_put values hkey field
    · rw [Function.update_of_ne hne, RecordMap.field_insert_of_ne _ hne]
      exact h.field key' field
  · by_cases hne : key' = key
    · rw [hne, RecordMap.field_insert_self] at hstr
      rcases Fields.mem_of_lookup_put hstr with hold | ⟨pair, hpair, rfl⟩
      · exact h.nulFree key field str (RecordMap.field_eq.trans hold)
      · exact hvalues pair hpair
    · rw [RecordMap.field_insert_of_ne _ hne] at hstr
      exact h.nulFree key' field str hstr

theorem Denotes.del (h : Denotes hash s m) {s' : σ} {key : Str}
    (hs' : hash s' = Function.update (hash s) key fun _ => none) :
    Denotes hash s' (m.erase key) := by
  have hfield : ∀ key' field, RecordMap.field (m.erase key) key' field =
      if key' = key then none else m.field key' field := fun key' field => by
    split_ifs with hne
    · rw [hne, RecordMap.field, Finmap.lookup_erase]
      rfl
    · rw [RecordMap.field, RecordMap.field, Finmap.lookup_erase_ne hne]
  refine ⟨fun key' field => ?_, fun key' field str hstr => ?_⟩
  · rw [hs', hfield]
    split_ifs with hne
    · rw [hne, Function.update_self]
    · rw [Function.update_of_ne hne]
      exact h.field key' field
  · rw [hfield] at hstr
    split_ifs at hstr
    exact h.nulFree key' field str hstr

/-- `RedisDB::Update` and, by it, `RedisDB::Insert`. -/
theorem Denotes.update (h : Denotes hash s m) (hserver : server.HashSemantics hash)
    (vprintf : Str → VaArg → Str) (slaves : ℤ) {key : Str} {values : List KVPair}
    (hkey : Sendable key)
    (hvalues : ∀ pair ∈ values, Sendable pair.1 ∧ Sendable pair.2) :
    ∃ replies s',
      server.serve (RedisClient.command vprintf slaves (updateCommand key values)) [] s =
        some (replies, s') ∧
      Denotes hash s' (m.insert key (((m.lookup key).getD ∅).put values)) := by
  have harguments : ∀ w ∈ updateArguments key values, Sendable w :=
    forall_mem_updateArguments.2 ⟨⟨by decide, by decide, by decide⟩, hkey, hvalues⟩
  have hf : redisvFormatCommand vprintf (updateCommand key values) [] =
      .ok (updateArguments key values) [] := by
    rw [updateCommand_eq]
    exact formatCommand_of_sendable harguments (List.cons_ne_nil _ _)
  obtain ⟨replies, s', hserve, hhash⟩ := RedisServer.serve_command hserver slaves hf s
  exact ⟨replies, s', hserve, h.hmset (fun pair hpair => (hvalues pair hpair).2.nulFree)
    (hhash.trans (hserver.hmset key values s))⟩

/-- **A call that writes.** It returns `kOK` and does on the map what an `Update` or a `Delete`
does. -/
theorem Denotes.step (h : Denotes hash s m) (hserver : server.HashSemantics hash)
    (vprintf : Str → VaArg → Str) (slaves : ℤ) {c : Call} (hc : c.Sendable) (hwrite : c.IsWrite) :
    ∃ s', call server vprintf slaves c s = some ((.kOK, []), s') ∧
      Denotes hash s' (c.overwrite.next m) := by
  cases c with
  | read table key fields result => exact absurd rfl (hwrite table key fields result)
  | update table key values =>
    obtain ⟨replies, s', hserve, hdenotes⟩ := h.update hserver vprintf slaves hc.key hc.values
    refine ⟨s', ?_, hdenotes⟩
    rw [call]
    exact congrArg (Option.bind · _) hserve
  | insert table key values =>
    obtain ⟨replies, s', hserve, hdenotes⟩ := h.update hserver vprintf slaves hc.key hc.values
    refine ⟨s', ?_, hdenotes⟩
    rw [call]
    exact congrArg (Option.bind · _) hserve
  | delete table key =>
    have harguments : ∀ w ∈ deleteArguments key, Sendable w :=
      forall_mem_deleteArguments.2 ⟨⟨by decide, by decide, by decide⟩, hc.key⟩
    have hf : redisvFormatCommand vprintf (deleteCommand key) [] =
        .ok (deleteArguments key) [] := by
      rw [deleteCommand_eq]
      exact formatCommand_of_sendable harguments (List.cons_ne_nil _ _)
    obtain ⟨replies, s', hserve, hhash⟩ := RedisServer.serve_command hserver slaves hf s
    refine ⟨s', ?_, h.del (hhash.trans (hserver.del key s))⟩
    rw [call]
    exact congrArg (Option.bind · _) hserve

theorem Denotes.run (h : Denotes hash s m) (hserver : server.HashSemantics hash)
    (vprintf : Str → VaArg → Str) (slaves : ℤ) {calls : List Call}
    (hcalls : ∀ c ∈ calls, c.Sendable ∧ c.IsWrite) :
    ∃ s', runCalls server vprintf slaves calls s = some (calls.map fun _ => (.kOK, []), s') ∧
      Denotes hash s' ((calls.map Call.overwrite).foldl Call.next m) := by
  induction calls generalizing s m with
  | nil => exact ⟨s, rfl, h⟩
  | cons c calls ih =>
    obtain ⟨⟨hc, hwrite⟩, hcalls⟩ := List.forall_mem_cons.1 hcalls
    obtain ⟨s₁, hcall, h₁⟩ := h.step hserver vprintf slaves hc hwrite
    obtain ⟨s₂, hrun, h₂⟩ := ih h₁ hcalls
    refine ⟨s₂, ?_, h₂⟩
    rw [runCalls, hcall]
    simp only [Option.bind_eq_bind, Option.bind_some, hrun]
    rfl

/-- **What a `Read` returns.** With a list of fields that is not empty, every field of the list, in
order, with its value or with an empty one. -/
theorem Denotes.read (h : Denotes hash s m) (hserver : server.HashSemantics hash)
    (vprintf : Str → VaArg → Str) (slaves : ℤ) (table key : Str) {fields : List Str}
    (hfields : fields ≠ []) (result : List KVPair) :
    ∃ s', call server vprintf slaves (.read table key (some fields) result) s =
        some ((.kOK, result ++ fields.map fun field => (field, (m.field key field).getD [])), s') ∧
      hash s' = hash s := by
  have hreply := hserver.hmget key fields s hfields
  have hvalue : ∀ field, replyString ((hash s key field).elim .nil .string) =
      (m.field key field).getD [] := fun field => by
    rw [h.field]
    cases hfield : m.field key field with
    | none => rfl
    | some str => exact cStr_of_nulFree (h.nulFree key field str hfield)
  refine ⟨_, ?_, hserver.hmget_hash key fields s⟩
  rw [call, Call.redis, RedisCall.hiredis, RedisServer.serve, List.nil_append, hreply]
  simp [RedisServer.serve, readReply, List.zipWith_map_right, List.zipWith_self, hvalue]

end RedisDB

end YcsbC
