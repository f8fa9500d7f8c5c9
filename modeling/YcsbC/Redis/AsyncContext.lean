import YcsbC.Redis.AsyncCommands
import YcsbC.Redis.Context
import YcsbC.Redis.Dict

/-!
# Asynchronous contexts

An asynchronous context keeps the callbacks of its commands in a list, and those of its
subscriptions in two hash tables. It is driven by an event library, which calls
`redisAsyncHandleRead` and `redisAsyncHandleWrite` (`redis/hiredis/async.c`).

What the callbacks do is open: they make calls on their context, but do not read or write. A
function is `none` when an assertion fails, and when a context is used after it has been freed.
Replies are made by the functions of hiredis, so that they are of the type `redisReply`.

## Main definitions

* `AsyncContext`: a context with its event library, what its callbacks will do, and the log of what
  has happened.
* `AsyncCall`: the calls of a program.
* `redisProcessCallbacks`, `redisAsyncHandleRead`, `redisAsyncHandleWrite`: the event handlers.
* `asyncRun`: any calls and events, in any order.
-/

namespace YcsbC

/-- A `redisCallback`; the function may be `NULL`. -/
structure RedisCallback where
  fn : Option ℕ
  privdata : ℕ
  deriving DecidableEq, Repr

/-- The calls that a program makes. The text of a command has been formatted. -/
inductive AsyncCall
  | command (cb : RedisCallback) (cmd : Str)
  | disconnect
  | free
  | setConnectCallback
  | setDisconnectCallback
  deriving DecidableEq, Repr

/-- What happens to a context: a command is accepted, bytes are read, a callback is called, and the
functions that are set by the program are called. -/
inductive AsyncEvent
  | accepted (cb : RedisCallback) (cmd : Str)
  | received (bytes : Str)
  | called (cb : RedisCallback) (reply : Option RedisReply)
  | connected (ok : Bool)
  | disconnected (ok : Bool)

/-- A `redisAsyncContext` with its flags. `reading` and `writing` are the events that its library
waits for, `script` is what the functions of the program will do when they are called, and `log` is
what has happened. -/
structure AsyncContext where
  c : ByteContext
  connected : Bool
  disconnecting : Bool
  freeing : Bool
  inCallback : Bool
  subscribed : Bool
  monitoring : Bool
  err : Option ContextError
  onConnect : Bool
  onDisconnect : Bool
  replies : List RedisCallback
  invalid : List RedisCallback
  channels : Dict Str RedisCallback
  patterns : Dict Str RedisCallback
  reading : Bool
  writing : Bool
  script : List (List AsyncCall)
  log : List AsyncEvent
  freed : Bool

/-- `callbackHash`. -/
def callbackHash (key : Str) : UInt32 := dictGenHashFunction key

/-- `EINPROGRESS`. -/
def einprogress : Errno := .other 115

/-- `redisAsyncConnect`, when the connection has been started. -/
def redisAsyncConnect (script : List (List AsyncCall)) : AsyncContext where
  c := ⟨none, false, [], .create⟩
  connected := false
  disconnecting := false
  freeing := false
  inCallback := false
  subscribed := false
  monitoring := false
  err := none
  onConnect := false
  onDisconnect := false
  replies := []
  invalid := []
  channels := dictCreate
  patterns := dictCreate
  reading := false
  writing := false
  script := script
  log := []
  freed := false

namespace AsyncContext

/-- The callbacks of the channels or of the patterns. -/
def subs (ac : AsyncContext) (pvariant : Bool) : Dict Str RedisCallback :=
  if pvariant then ac.patterns else ac.channels

/-- The callbacks of the channels or of the patterns are changed. -/
def setSubs (ac : AsyncContext) (pvariant : Bool) (d : Dict Str RedisCallback) : AsyncContext :=
  if pvariant then { ac with patterns := d } else { ac with channels := d }

/-- An event is logged. -/
def record (ac : AsyncContext) (e : AsyncEvent) : AsyncContext := { ac with log := ac.log ++ [e] }

end AsyncContext

/-! ### Commands -/

/-- The flags and the callbacks are changed by a command; the result is whether it is appended. -/
def registerCallback (ac : AsyncContext) (cb : RedisCallback) : AsyncKind → Bool × AsyncContext
  | .subscribe pvariant names =>
    (true, names.foldl
      (fun ac name =>
        ac.setSubs pvariant (dictReplace callbackHash (ac.subs pvariant) name cb).2)
      { ac with subscribed := true })
  | .unsubscribe => (ac.subscribed, ac)
  | .monitor => (true, { ac with monitoring := true, replies := ac.replies ++ [cb] })
  | .regular =>
    (true, if ac.subscribed then { ac with invalid := ac.invalid ++ [cb] }
      else { ac with replies := ac.replies ++ [cb] })

/-- `__redisAsyncCommand`; the result is whether it returns `REDIS_OK`. -/
def redisAsyncCommand (ac : AsyncContext) (cb : RedisCallback) (cmd : Str) :
    Option (Bool × AsyncContext) :=
  if ac.disconnecting || ac.freeing then some (false, ac)
  else
    match asyncKind cmd with
    | none => none
    | some kind =>
      match registerCallback ac cb kind with
      | (false, ac) => some (false, ac)
      | (true, ac) =>
        some (true, { ac.record (.accepted cb cmd) with
          c := { ac.c with obuf := ac.c.obuf ++ cmd }, writing := true })

/-- `redisAsyncSetConnectCallback`. -/
def redisAsyncSetConnectCallback (ac : AsyncContext) : AsyncContext :=
  if ac.onConnect then ac else { ac with onConnect := true, writing := true }

/-- `redisAsyncSetDisconnectCallback`. -/
def redisAsyncSetDisconnectCallback (ac : AsyncContext) : AsyncContext :=
  { ac with onDisconnect := true }

/-! ### Callbacks -/

/-- A call by a callback: `REDIS_IN_CALLBACK` is set, so that `redisAsyncDisconnect` and
`redisAsyncFree` set their flag only. -/
def callWithin (ac : AsyncContext) : AsyncCall → Option AsyncContext
  | .command cb cmd => (redisAsyncCommand ac cb cmd).map Prod.snd
  | .disconnect => some { ac with disconnecting := true }
  | .free => some { ac with freeing := true }
  | .setConnectCallback => some (redisAsyncSetConnectCallback ac)
  | .setDisconnectCallback => some (redisAsyncSetDisconnectCallback ac)

/-- `__redisRunCallback`. -/
def redisRunCallback (ac : AsyncContext) (cb : RedisCallback) (reply : Option RedisReply) :
    Option AsyncContext :=
  match cb.fn with
  | none => some ac
  | some _ =>
    (ac.script.headD []).foldlM callWithin
        { ac.record (.called cb reply) with inCallback := true, script := ac.script.tail } |>.map
      fun ac => { ac with inCallback := false }

/-! ### The end of a context -/

/-- The loop of `__redisAsyncFree` over `replies`, at most `n` times. -/
def freeReplies : ℕ → AsyncContext → Option AsyncContext
  | 0, _ => none
  | n + 1, ac =>
    match ac.replies with
    | [] => some ac
    | cb :: rest => (redisRunCallback { ac with replies := rest } cb none).bind (freeReplies n)

/-- The loop of `__redisAsyncFree` over `sub.invalid`, at most `n` times. -/
def freeInvalid : ℕ → AsyncContext → Option AsyncContext
  | 0, _ => none
  | n + 1, ac =>
    match ac.invalid with
    | [] => some ac
    | cb :: rest => (redisRunCallback { ac with invalid := rest } cb none).bind (freeInvalid n)

/-- A loop of `__redisAsyncFree` over subscriptions, at most `n` times. -/
def freeSubs (pvariant : Bool) : ℕ → DictIterator Str RedisCallback → AsyncContext →
    Option AsyncContext
  | 0, _, _ => none
  | n + 1, it, ac =>
    match dictNext (ac.subs pvariant) it with
    | (none, _) => some (ac.setSubs pvariant dictCreate)
    | (some e, it) => (redisRunCallback ac e.2 none).bind (freeSubs pvariant n it)

/-- `__redisAsyncFree`. The function that is called at the end does not free the context again. -/
def redisAsyncFreeNow (ac : AsyncContext) : Option AsyncContext := do
  let ac ← freeReplies (ac.replies.length + 1) ac
  let ac ← freeInvalid (ac.invalid.length + 1) ac
  let ac ← freeSubs false (ac.channels.used + 1) dictGetIterator ac
  let ac ← freeSubs true (ac.patterns.used + 1) dictGetIterator ac
  let ac :=
    if ac.onDisconnect && ac.connected then ac.record (.disconnected (ac.freeing || ac.err.isNone))
    else ac
  return { ac with reading := false, writing := false, freed := true }

/-- `redisAsyncFree`. -/
def redisAsyncFree (ac : AsyncContext) : Option AsyncContext :=
  let ac := { ac with freeing := true }
  if ac.inCallback then some ac else redisAsyncFreeNow ac

/-- `__redisAsyncDisconnect`. -/
def redisAsyncDisconnectNow (ac : AsyncContext) : Option AsyncContext :=
  let ac := { ac with err := ac.c.err }
  if ac.err.isNone then if ac.replies = [] then redisAsyncFreeNow ac else none
  else redisAsyncFreeNow { ac with disconnecting := true }

/-- `redisAsyncDisconnect`. -/
def redisAsyncDisconnect (ac : AsyncContext) : Option AsyncContext :=
  let ac := { ac with disconnecting := true }
  if !ac.inCallback && ac.replies = [] then redisAsyncDisconnectNow ac else some ac

/-- A call by the program. -/
def AsyncCall.run (ac : AsyncContext) : AsyncCall → Option AsyncContext
  | .command cb cmd => (redisAsyncCommand ac cb cmd).map Prod.snd
  | .disconnect => redisAsyncDisconnect ac
  | .free => redisAsyncFree ac
  | .setConnectCallback => some (redisAsyncSetConnectCallback ac)
  | .setDisconnectCallback => some (redisAsyncSetDisconnectCallback ac)

/-! ### Replies -/

/-- `__redisGetSubscribeCallback`: the callback, which is that of the last reply if there is none
for this one. -/
def redisGetSubscribeCallback (ac : AsyncContext) (cb : RedisCallback) :
    RedisReply → Option (RedisCallback × AsyncContext)
  | .array (.string stype :: .string sname :: rest) =>
    let stype := cStr stype
    let pvariant : Bool := (stype.headD nul).toLower = 'p'
    match dictFind callbackHash (ac.subs pvariant) sname with
    | none => some (cb, ac)
    | some e =>
      let kind := if pvariant then stype.tail else stype
      if kind.map Char.toLower = "unsubscribe".toList then
        let ac := ac.setSubs pvariant (dictDelete callbackHash (ac.subs pvariant) sname).2
        match rest with
        | .integer n :: _ =>
          some (e.2, if n = 0 then { ac with subscribed := false } else ac)
        | _ => none
      else some (e.2, ac)
  | .array _ => none
  | .hollow _ => none
  | _ =>
    match ac.invalid with
    | [] => some (cb, ac)
    | cb :: rest => some (cb, { ac with invalid := rest })

/-- The callback of a reply; `none` within is a reply that nobody waits for. -/
def callbackOf (ac : AsyncContext) (cb : RedisCallback) (reply : RedisReply) :
    Option (Option RedisCallback × AsyncContext) :=
  match ac.replies with
  | cb :: rest => some (some cb, { ac with replies := rest })
  | [] =>
    match reply with
    | .error str =>
      some (none, { ac with c := { ac.c with err := some (.other ((cStr str).take 127)) } })
    | _ =>
      if ac.subscribed then
        (redisGetSubscribeCallback ac cb reply).map fun p => (some p.1, p.2)
      else if ac.monitoring then some (some cb, ac)
      else none

/-- The loop of `redisProcessCallbacks`, at most `n` times; `cb` is the callback of the last reply.
The context does not block, so that `redisGetReply` asks the reader only. -/
def processLoop : ℕ → RedisCallback → AsyncContext → Option AsyncContext
  | 0, _, _ => none
  | n + 1, cb, ac =>
    match redisGetReplyFromReader ac.c with
    | (false, _, c) => redisAsyncDisconnectNow { ac with c := c }
    | (true, none, c) =>
      if ac.disconnecting && c.obuf = [] && ac.replies = [] then
        redisAsyncDisconnectNow { ac with c := c }
      else if ac.monitoring then some { ac with c := c, replies := ac.replies ++ [cb] }
      else some { ac with c := c }
    | (true, some reply, c) =>
      match callbackOf { ac with c := c } cb reply with
      | none => none
      | some (none, ac) => redisAsyncDisconnectNow ac
      | some (some cb, ac) =>
        (redisRunCallback ac cb (some reply)).bind fun ac =>
          if cb.fn.isSome && ac.freeing then redisAsyncFreeNow ac else processLoop n cb ac

/-- `redisProcessCallbacks`; a reply has a byte at least. -/
def redisProcessCallbacks (ac : AsyncContext) : Option AsyncContext :=
  processLoop (ac.c.reader.unread.length + 1) ⟨none, 0⟩ ac

/-! ### Events -/

/-- The function that has been set for the connection is called, and does not free the context. -/
def runOnConnect (ac : AsyncContext) (ok : Bool) : Option AsyncContext :=
  if ac.onConnect then
    (ac.script.headD []).foldlM
        (fun ac call => (call.run ac).filter fun ac => !ac.freed)
        { ac.record (.connected ok) with script := ac.script.tail }
  else some ac

/-- `__redisAsyncHandleConnect`, with the error of the socket; the result is whether it returns
`REDIS_OK`. -/
def redisAsyncHandleConnect (ac : AsyncContext) : Option Errno → Option (Bool × AsyncContext)
  | some e =>
    let ac := { ac with c := { ac.c with err := some (.io e) } }
    if e = einprogress then some (true, ac)
    else ((runOnConnect ac false).bind redisAsyncDisconnectNow).map fun ac => (false, ac)
  | none => (runOnConnect { ac with connected := true } true).map fun ac => (true, ac)

/-- The part that the two handlers have in common: whether they go on. -/
def handleEvent (ac : AsyncContext) (sock : Option Errno) : Option (Bool × AsyncContext) :=
  if ac.connected then some (true, ac)
  else (redisAsyncHandleConnect ac sock).map fun p => (p.1 && p.2.connected, p.2)

/-- `redisAsyncHandleWrite`, with the error of the socket. -/
def redisAsyncHandleWrite (ac : AsyncContext) (k : Wire) (sock : Option Errno) :
    Option (AsyncContext × Wire) :=
  match handleEvent ac sock with
  | none => none
  | some (false, ac) => some (ac, k)
  | some (true, ac) =>
    match redisBufferWrite ac.c k with
    | none => none
    | some (false, c, k) => (redisAsyncDisconnectNow { ac with c := c }).map fun ac => (ac, k)
    | some (true, c, k) =>
      some ({ ac with c := c, writing := !decide (c.obuf = []), reading := true }, k)

section Respond

variable (respond : Str → Str)

/-- The bytes that a `read` has moved. -/
def readBytes (k k' : Wire) : Str :=
  ((respond k.sent).drop k.received).take (k'.received - k.received)

/-- `redisAsyncHandleRead`, with the error of the socket. -/
def redisAsyncHandleRead (ac : AsyncContext) (k : Wire) (sock : Option Errno) :
    Option (AsyncContext × Wire) :=
  match handleEvent ac sock with
  | none => none
  | some (false, ac) => some (ac, k)
  | some (true, ac) =>
    match redisBufferRead respond ac.c k with
    | none => none
    | some (false, c, k) => (redisAsyncDisconnectNow { ac with c := c }).map fun ac => (ac, k)
    | some (true, c, k') =>
      (redisProcessCallbacks
        { ac.record (.received (readBytes respond k k')) with c := c, reading := true }).map
          fun ac => (ac, k')

/-- A call of the program or an event. -/
inductive AsyncInput
  | call (call : AsyncCall)
  | read (sock : Option Errno)
  | write (sock : Option Errno)
  deriving DecidableEq, Repr

/-- One input; a context is not used after it has been freed. -/
def asyncStep (ac : AsyncContext) (k : Wire) (input : AsyncInput) :
    Option (AsyncContext × Wire) :=
  if ac.freed then none
  else
    match input with
    | .call call => (call.run ac).map fun ac => (ac, k)
    | .read sock => redisAsyncHandleRead respond ac k sock
    | .write sock => redisAsyncHandleWrite ac k sock

/-- A run. -/
def asyncRun (ac : AsyncContext) (k : Wire) (inputs : List AsyncInput) :
    Option (AsyncContext × Wire) :=
  inputs.foldlM (fun p input => asyncStep respond p.1 p.2 input) (ac, k)

end Respond

end YcsbC
