import Mathlib.Data.List.Basic

/-!
# The lock server and the lock client, one critical section at a time

Both sides of the caching lock protocol hold a mutex and drop it around every remote
call. Each definition below is the code between two such points, as a function of the
record kept for one lock. An assertion that fails is `none`.
-/

namespace Yfs.LockProtocol

/-- The bytes of a `std::string`. -/
abbrev Str := List UInt8

/-- `typedef int status`, of all three protocols. -/
abbrev Status := Int

abbrev LockId := UInt64

/-- `lock_protocol::xxstatus`. -/
def statusOk : Status := 0
def statusRetry : Status := 1

/-- `lock_protocol::lkstatus`. -/
inductive LkStatus where
  | free | locked | expecting
  deriving DecidableEq, Repr

/-- `rlock_protocol::rlkstatus`. -/
inductive RlkStatus where
  | none | owned | locked | acquiring | waiting | releasing
  deriving DecidableEq, Repr

/-- The three values of the `int pending`: zero or a number of `rlock_protocol`. -/
inductive Pending where
  | zero | revoke | retry
  deriving DecidableEq, Repr

/-! ## `lock_server_cache` -/

structure ClientState where
  id : Str := []
  sendRpc : Bool := false
  deriving DecidableEq, Repr

structure LockStateServer where
  state : LkStatus := .free
  holdingClient : ClientState := {}
  waitingClients : List Str := []
  deriving DecidableEq, Repr

/-- The critical section of `lock_server_cache::acquire`: the new record, the status to
return, and the client to revoke the lock from, if any. -/
def serverAcquire (s : LockStateServer) (id : Str) :
    Option (LockStateServer × Status × Option Str) :=
  match s.state with
  | .free =>
    if s.waitingClients = [] then
      some ({ s with state := .locked, holdingClient := ⟨id, false⟩ }, statusOk, none)
    else none
  | .expecting =>
    if s.holdingClient.id = [] then none
    else if s.holdingClient.id = id then
      some ({ s with state := .locked }, statusOk,
        if s.holdingClient.sendRpc then some s.holdingClient.id else none)
    else
      some ({ s with waitingClients := s.waitingClients ++ [id],
                     holdingClient := { s.holdingClient with sendRpc := true } },
        statusRetry, none)
  | .locked =>
    if s.holdingClient.id = [] then none
    else if s.holdingClient.id = id then none
    else if s.holdingClient.sendRpc = false then
      some ({ s with waitingClients := s.waitingClients ++ [id],
                     holdingClient := { s.holdingClient with sendRpc := true } },
        statusRetry, some s.holdingClient.id)
    else
      some ({ s with waitingClients := s.waitingClients ++ [id] }, statusRetry, none)

/-- The critical section of `lock_server_cache::release`: the new record and the waiting
client that is told to retry, if any. -/
def serverRelease (s : LockStateServer) (id : Str) : Option (LockStateServer × Option Str) :=
  if s.state ≠ .locked then none
  else if s.holdingClient.id ≠ id then none
  else match s.waitingClients with
    | [] => some ({ s with holdingClient := ⟨[], false⟩, state := .free }, none)
    | dest :: rest =>
      some ({ state := .expecting, holdingClient := ⟨dest, !rest.isEmpty⟩,
              waitingClients := rest }, some dest)

/-! ## `lock_client_cache` -/

/-- The record of one lock at a client. The source's `bool locked` is never read. -/
structure LockStateClient where
  state : RlkStatus := .none
  pending : Pending := .zero
  deriving DecidableEq, Repr

/-- What a critical section of the client does as it lets go of the mutex. -/
inductive ClientMove where
  | done (broadcast : Bool)
  | callAcquire
  | callAcquireAgain
  | callRelease
  | sleep
  deriving DecidableEq, Repr

/-- The body of the `do` loop of `acquire`, up to its first remote call or its wait. -/
def acquireLoop (c : LockStateClient) : LockStateClient × ClientMove :=
  if c.state = .none then ({ c with state := .acquiring }, .callAcquire) else (c, .sleep)

/-- `acquire` from its start. -/
def acquireStart (c : LockStateClient) : LockStateClient × ClientMove :=
  if c.state = .owned then ({ c with state := .locked }, .done false) else acquireLoop c

/-- `acquire` after `pthread_cond_wait` has returned. -/
def acquireWoken (c : LockStateClient) : LockStateClient × ClientMove :=
  if c.state ≠ .owned then acquireLoop c else ({ c with state := .locked }, .done false)

/-- `acquire` after its first remote call was answered with `r`. -/
def acquireAnswered (r : Status) (c : LockStateClient) : Option (LockStateClient × ClientMove) :=
  if c.state ≠ .acquiring then none
  else if r = statusOk then some ({ c with state := .locked }, .done false)
  else if c.pending = .revoke then none
  else if c.pending = .retry then some (⟨.waiting, .zero⟩, .callAcquireAgain)
  else some ({ c with state := .waiting }, .sleep)

/-- `acquire` after its second remote call was answered with `r`. -/
def acquireAnsweredAgain (r : Status) (c : LockStateClient) :
    Option (LockStateClient × ClientMove) :=
  if r ≠ statusOk then none else some ({ c with state := .locked }, .done false)

/-- `release` from its start. -/
def releaseStart (c : LockStateClient) : Option (LockStateClient × ClientMove) :=
  if c.state ≠ .locked then none
  else if c.pending = .retry then none
  else if c.pending = .zero then some ({ c with state := .owned }, .done true)
  else some (⟨.releasing, .zero⟩, .callRelease)

/-- `release` after its remote call was answered with `r`. -/
def releaseAnswered (r : Status) (c : LockStateClient) : Option (LockStateClient × ClientMove) :=
  if r ≠ statusOk then none
  else if c.state ≠ .releasing then none
  else some ({ c with state := .none }, .done false)

/-- `revoke_handler` from its start. -/
def revokeStart (c : LockStateClient) : Option (LockStateClient × ClientMove) :=
  if c.state = .none then none
  else if c.pending ≠ .zero then none
  else if c.state = .owned then some ({ c with state := .releasing }, .callRelease)
  else some ({ c with pending := .revoke }, .done false)

/-- `revoke_handler` after its remote call was answered with `r`. -/
def revokeAnswered (r : Status) (c : LockStateClient) : Option (LockStateClient × ClientMove) :=
  if r ≠ statusOk then none else some ({ c with state := .none }, .done true)

/-- `retry_handler` from its start. -/
def retryStart (c : LockStateClient) : Option (LockStateClient × ClientMove) :=
  if c.pending ≠ .zero then none
  else if c.state = .acquiring then some ({ c with pending := .retry }, .done false)
  else if c.state = .waiting then some (c, .callAcquireAgain)
  else none

/-- `retry_handler` after its remote call was answered with `r`. -/
def retryAnswered (r : Status) (c : LockStateClient) : Option (LockStateClient × ClientMove) :=
  if r ≠ statusOk then none else some ({ c with state := .owned }, .done true)

end Yfs.LockProtocol
