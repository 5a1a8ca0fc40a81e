import FawnKV.Chain.Requests
import FawnKV.FrontEnd.Cache

/-! `FawnKVServerHandler` between the clients and the back end, as one system with both. -/
namespace FawnKV.FrontEnd

open Fawn FawnKV.Membership
open Chain (toUInt32 ReturnStatus)

/-- `ClientData`; the connection `fc` is its place in the memory of the handler. -/
structure ClientData where
  reqContMap : Std.TreeMap Int Int

namespace ClientData

def addContinuation (cd : ClientData) (continuation req : Int) : ClientData :=
  { cd with reqContMap := cd.reqContMap.insert req continuation }

/-- `req_cont_map[req]`, which makes an entry of `0` where there is none. -/
def getContinuation (cd : ClientData) (req : Int) : Int × ClientData :=
  (cd.reqContMap.getD req 0, { cd with reqContMap := cd.reqContMap.insertIfNew req 0 })

def removeContinuation (cd : ClientData) (req : Int) : ClientData :=
  { cd with reqContMap := cd.reqContMap.erase req }

end ClientData

/-- What the handler asks the front end to send to the back end. -/
inductive Call where
  | put (key value : Data) (continuation : Int)
  | get (key : Data) (continuation : Int)
  | remove (key : Data) (continuation : Int)

def Call.continuation : Call → Int
  | .put _ _ continuation => continuation
  | .get _ continuation => continuation
  | .remove _ continuation => continuation

/-- `put_response`, or `get_response` with a value, to a client. -/
structure Response where
  client : Nat
  value : Option Data
  continuation : Int

inductive Output where
  | call (c : Call)
  | response (r : Response)

/-- The handler with its maps; a pointer to a `ClientData` is its position in `clients`. -/
structure Handler where
  clientID : Int
  reqNumber : Int
  cidClientMap : Std.TreeMap Int Nat
  reqClientMap : Std.TreeMap Nat Nat
  clients : List ClientData
  cache : Option Cache

namespace Handler

def start (cache : Option Cache) : Handler :=
  { clientID := 0, reqNumber := 0, cidClientMap := ∅, reqClientMap := ∅, clients := [], cache }

def getClient (h : Handler) (cid : Int) : Option Nat := h.cidClientMap[cid]?

/-- `init`, with the number it returns to the client. -/
def init (h : Handler) : Int × Handler :=
  let cid := h.clientID
  (cid,
    { h with
      clientID := (cid + 1).bmod (2 ^ 32)
      clients := h.clients ++ [⟨∅⟩]
      cidClientMap := h.cidClientMap.insert cid h.clients.length })

/-- The server-side continuation of a request. -/
def nextRequest (h : Handler) : Int × Handler :=
  (h.reqNumber, { h with reqNumber := (h.reqNumber + 1).bmod (2 ^ 64) })

/-- Both maps for a request that is sent on; the keys of `req_client_map` have 32 bits. -/
def record (h : Handler) (cd : Nat) (continuation ssContinuation : Int) : Handler :=
  { h with
    clients := h.clients.modify cd (·.addContinuation continuation ssContinuation)
    reqClientMap := h.reqClientMap.insert (toUInt32 ssContinuation) cd }

/-- A client that is not known is a null pointer, here and below. -/
def get (h : Handler) (key : Data) (continuation cid : Int) : Option (Handler × Output) :=
  let (ssContinuation, h) := h.nextRequest
  (h.getClient cid).map fun cd =>
    match h.cache.bind (·.lookup (.init key)) with
    | some value => (h, .response { client := cd, value := some value, continuation })
    | none => (h.record cd continuation ssContinuation, .call (.get key ssContinuation))

def put (h : Handler) (key value : Data) (continuation cid : Int) : Option (Handler × Output) :=
  let (ssContinuation, h) := h.nextRequest
  (h.getClient cid).map fun cd =>
    let h := h.record cd continuation ssContinuation
    ({ h with cache := h.cache.map (·.insert (.init key) value) }, .call (.put key value ssContinuation))

def remove (h : Handler) (key : Data) (continuation cid : Int) : Option (Handler × Output) :=
  let (ssContinuation, h) := h.nextRequest
  (h.getClient cid).map fun cd =>
    (h.record cd continuation ssContinuation, .call (.remove key ssContinuation))

/-- The common part of the callbacks. -/
def callback (h : Handler) (continuation : Nat) (value : Option Data) : Option (Handler × Output) :=
  h.reqClientMap[continuation]?.bind fun cd =>
    h.clients[cd]?.map fun data =>
      let (cliContinuation, data) := data.getContinuation continuation
      ({ h with clients := h.clients.set cd (data.removeContinuation continuation) },
        .response { client := cd, value, continuation := cliContinuation })

def putCb (h : Handler) (continuation : Nat) : Option (Handler × Output) := h.callback continuation none

def getCb (h : Handler) (value : Data) (continuation : Nat) : Option (Handler × Output) :=
  h.callback continuation (some value)

/-- `FrontEnd::put_response`; the callback takes 32 bits. -/
def putResponse (h : Handler) (continuation : Int) : Option (Handler × Output) :=
    h.putCb (toUInt32 continuation)

/-- `FrontEnd::get_response`; with a stale ring the front end asks again. -/
def getResponse (h : Handler) (key value : Data) (continuation status : Int) : Option (Handler × Output) :=
  if status = ReturnStatus.staleRing.toInt then some (h, .call (.get key continuation))
  else h.getCb value (toUInt32 continuation)

/-- `FrontEnd::remove_response`. -/
def removeResponse (h : Handler) (continuation : Int) : Option (Handler × Output) :=
    h.putCb (toUInt32 continuation)

end Handler

/-- What a client asks for. -/
inductive ClientOp where
  | put (key value : Data)
  | get (key : Data)
  | remove (key : Data)

/-- A request as the client that makes it knows it. -/
structure ClientRequest where
  client : Nat
  continuation : Int
  op : ClientOp

/-- What comes back from the back end for a request. -/
inductive Reply where
  | put
  | get (key value : Data) (status : Int)
  | remove

/-- The reply says that the ring of the front end is not the current one. -/
def Reply.stale : Reply → Bool
  | .get _ _ status => status = ReturnStatus.staleRing.toInt
  | _ => false

def Handler.request (h : Handler) (op : ClientOp) (continuation cid : Int) : Option (Handler × Output) :=
  match op with
  | .put key value => h.put key value continuation cid
  | .get key => h.get key continuation cid
  | .remove key => h.remove key continuation cid

def Handler.reply (h : Handler) (continuation : Int) : Reply → Option (Handler × Output)
  | .put => h.putResponse continuation
  | .get key value status => h.getResponse key value continuation status
  | .remove => h.removeResponse continuation

/-- A request the handler got, with the continuation of the call if it was sent on. -/
structure Issued where
  request : ClientRequest
  sent : Option Int

/-- A response a client got, with the request it answers. -/
structure Delivery where
  request : Nat
  response : Response
  cached : Bool

/-- The handler, the number each client has, and all that was asked and answered so far. An event is one step:
`put` and `get` change the maps under the mutex, but `remove` and `init` do not take it, so that no `remove` and
no `init` is to run beside another request or a callback. -/
structure System where
  handler : Handler
  cids : List Int
  issued : List Issued
  delivered : List Delivery

inductive Event where
  | connect
  | request (r : ClientRequest)
  | respond (n : Nat) (reply : Reply)

namespace System

def start (cache : Option Cache) : System :=
    { handler := .start cache, cids := [], issued := [], delivered := [] }

/-- A new request, with what the handler made of it. -/
def ask (s : System) (r : ClientRequest) : Handler × Output → System
  | (h, .call c) => { s with handler := h, issued := s.issued ++ [⟨r, some c.continuation⟩] }
  | (h, .response a) =>
    { s with
      handler := h
      issued := s.issued ++ [⟨r, none⟩]
      delivered := s.delivered ++ [⟨s.issued.length, a, true⟩] }

/-- The answer to request `n`. -/
def answer (s : System) (n : Nat) : Handler × Output → System
  | (h, .call _) => { s with handler := h }
  | (h, .response a) => { s with handler := h, delivered := s.delivered ++ [⟨n, a, false⟩] }

/-- A client that is connected may ask, and the back end may answer what it was sent, again and again. -/
def step (s : System) : Event → Option System
  | .connect => some { s with handler := s.handler.init.2, cids := s.cids ++ [s.handler.init.1] }
  | .request r => s.cids[r.client]?.bind fun cid => (s.handler.request r.op r.continuation cid).map (s.ask r)
  | .respond n reply =>
    s.issued[n]?.bind fun i => i.sent.bind fun continuation =>
      (s.handler.reply continuation reply).map (s.answer n)

end System

section Cases

variable {h : Handler} {op : ClientOp} {continuation cid : Int} {out : Handler × Output}

/-- What the cache becomes with a request. -/
def Handler.cacheAfter (h : Handler) : ClientOp → Option Cache
  | .put key value => h.cache.map (·.insert (.init key) value)
  | _ => h.cache

/-- What the cache has for a key. -/
def Handler.lookup (h : Handler) (key : Data) : Option Data := h.cache.bind (·.lookup (.init key))

/-- A request is answered from the cache, or it is recorded and sent on under the next number. -/
theorem Handler.request_cases (hout : h.request op continuation cid = some out) :
    ∃ cd, h.getClient cid = some cd ∧
      ((∃ key value, op = .get key ∧ h.lookup key = some value ∧
          out = (h.nextRequest.2, .response { client := cd, value := some value, continuation })) ∨
        (∀ key, op = .get key → h.lookup key = none) ∧ ∃ c : Call, c.continuation = h.reqNumber ∧
          out = ({ h.nextRequest.2.record cd continuation h.reqNumber with cache := h.cacheAfter op },
            .call c)) := by
  cases op with
  | put key value =>
    obtain ⟨cd, hcd, rfl⟩ := Option.map_eq_some_iff.mp hout
    exact ⟨cd, hcd, .inr ⟨fun _ hget => (nomatch hget), .put key value h.reqNumber, rfl, rfl⟩⟩
  | remove key =>
    obtain ⟨cd, hcd, rfl⟩ := Option.map_eq_some_iff.mp hout
    exact ⟨cd, hcd, .inr ⟨fun _ hget => (nomatch hget), .remove key h.reqNumber, rfl, rfl⟩⟩
  | get key =>
    obtain ⟨cd, hcd, rfl⟩ := Option.map_eq_some_iff.mp hout
    refine ⟨cd, hcd, ?_⟩
    split
    · rename_i value hhit
      exact .inl ⟨key, value, rfl, hhit, rfl⟩
    · rename_i hmiss
      refine .inr ⟨?_, .get key h.reqNumber, rfl, rfl⟩
      rintro key' hget
      cases hget
      exact hmiss

theorem Handler.callback_cases {req : Nat} {value : Option Data} (hout : h.callback req value = some out) :
    ∃ cd data, h.reqClientMap[req]? = some cd ∧ h.clients[cd]? = some data ∧
      out = ({ h with clients := h.clients.set cd ((data.getContinuation req).2.removeContinuation req) },
        .response { client := cd, value, continuation := (data.getContinuation req).1 }) := by
  obtain ⟨cd, hcd, hout⟩ := Option.bind_eq_some_iff.mp hout
  obtain ⟨data, hdata, rfl⟩ := Option.map_eq_some_iff.mp hout
  exact ⟨cd, data, hcd, hdata, rfl⟩

/-- A reply makes the front end ask again, or goes to a callback, with 32 bits of its continuation. -/
theorem Handler.reply_cases {reply : Reply} (hout : h.reply continuation reply = some out) :
    (reply.stale = true ∧ ∃ c, out = (h, .call c)) ∨
      reply.stale = false ∧ ∃ value, h.callback (toUInt32 continuation) value = some out := by
  cases reply with
  | put => exact .inr ⟨rfl, none, hout⟩
  | remove => exact .inr ⟨rfl, none, hout⟩
  | get key value status =>
    rw [Handler.reply, Handler.getResponse] at hout
    split at hout
    · rename_i hstale
      cases hout
      exact .inl ⟨decide_eq_true hstale, _, rfl⟩
    · rename_i hcurrent
      exact .inr ⟨decide_eq_false hcurrent, some value, hout⟩

namespace System

variable {s t : System}

theorem step_request {r : ClientRequest} (hstep : s.step (.request r) = some t) :
    ∃ cid cd, s.cids[r.client]? = some cid ∧ s.handler.getClient cid = some cd ∧
      ((∃ key value, r.op = .get key ∧ s.handler.lookup key = some value ∧
          t = { s with
            handler := s.handler.nextRequest.2
            issued := s.issued ++ [⟨r, none⟩]
            delivered := s.delivered ++ [⟨s.issued.length, ⟨cd, some value, r.continuation⟩, true⟩] }) ∨
        (∀ key, r.op = .get key → s.handler.lookup key = none) ∧
          t = { s with
            handler := { s.handler.nextRequest.2.record cd r.continuation s.handler.reqNumber with
              cache := s.handler.cacheAfter r.op }
            issued := s.issued ++ [⟨r, some s.handler.reqNumber⟩] }) := by
  obtain ⟨cid, hcid, hstep⟩ := Option.bind_eq_some_iff.mp hstep
  obtain ⟨out, hout, rfl⟩ := Option.map_eq_some_iff.mp hstep
  obtain ⟨cd, hcd, ⟨key, value, hop, hhit, rfl⟩ | ⟨hmiss, c, hc, rfl⟩⟩ := Handler.request_cases hout
  · exact ⟨cid, cd, hcid, hcd, .inl ⟨key, value, hop, hhit, rfl⟩⟩
  · refine ⟨cid, cd, hcid, hcd, .inr ⟨hmiss, ?_⟩⟩
    rw [ask, hc]

theorem step_respond {n : Nat} {reply : Reply} (hstep : s.step (.respond n reply) = some t) :
    ∃ i continuation, s.issued[n]? = some i ∧ i.sent = some continuation ∧
      (reply.stale = true ∧ t = s ∨ reply.stale = false ∧ ∃ cd data value,
        s.handler.reqClientMap[toUInt32 continuation]? = some cd ∧
        s.handler.clients[cd]? = some data ∧
        t = { s with
          handler := { s.handler with
            clients := s.handler.clients.set cd
              ((data.getContinuation (toUInt32 continuation)).2.removeContinuation (toUInt32 continuation)) }
          delivered := s.delivered ++
            [⟨n, ⟨cd, value, (data.getContinuation (toUInt32 continuation)).1⟩, false⟩] }) := by
  obtain ⟨i, hi, hstep⟩ := Option.bind_eq_some_iff.mp hstep
  obtain ⟨continuation, hsent, hstep⟩ := Option.bind_eq_some_iff.mp hstep
  obtain ⟨out, hout, rfl⟩ := Option.map_eq_some_iff.mp hstep
  refine ⟨i, continuation, hi, hsent, ?_⟩
  rcases Handler.reply_cases hout with ⟨hstale, c, rfl⟩ | ⟨hcurrent, value, hcallback⟩
  · exact .inl ⟨hstale, rfl⟩
  · obtain ⟨cd, data, hcd, hdata, rfl⟩ := Handler.callback_cases hcallback
    exact .inr ⟨hcurrent, cd, data, value, hcd, hdata, rfl⟩

end System

end Cases

end FawnKV.FrontEnd
