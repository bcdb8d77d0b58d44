import LearningCode.Lib.Threads

/-!
# The connection pool

`CDBPool` of `DBPool.cpp`, one step for each section under `m_mutex`: a call up to
its wait or its return, and a wait once it has the mutex again. What `new` returns
and whether `CDBConn::Init` succeeds come with the call. The names and addresses
that only the connection looks at are left out.
-/

namespace LearningCode.DbPool

abbrev Ptr := Nat

def MIN_DB_CONN_CNT : Int := 1

structure CDBPool where
  dbMaxConnCnt : Int
  dbCurConnCnt : Int
  /-- `none` is NULL. -/
  freeList : List (Option Ptr)
  usedList : List (Option Ptr)
  abortRequest : Bool
  /-- The connections the pool has made and not deleted. -/
  created : List Ptr
  deriving DecidableEq

def CDBPool.new (maxConnCnt : Int) : CDBPool := ⟨maxConnCnt, MIN_DB_CONN_CNT, [], [], false, []⟩

/-- What `new` returned, and what `CDBConn::Init` did. -/
structure Made where
  conn : Ptr
  ret : Int
  deriving DecidableEq

def CDBPool.make (s : CDBPool) (c : Ptr) : CDBPool := { s with created := c :: s.created }

def CDBPool.delete (s : CDBPool) (c : Ptr) : CDBPool := { s with created := s.created.erase c }

def CDBPool.pushFree (s : CDBPool) (o : Option Ptr) : CDBPool :=
  { s with freeList := s.freeList ++ [o] }

def init (made : Nat → Made) : (n i : Nat) → CDBPool → CDBPool × Int
  | 0, _, s => (s, 0)
  | n + 1, i, s =>
    let s := s.make (made i).conn
    if (made i).ret ≠ 0 then (s.delete (made i).conn, (made i).ret)
    else init made n (i + 1) (s.pushFree (some (made i).conn))

inductive Pc
  | idle
  /-- In the wait of `GetDBConn`. -/
  | waiting (timeoutMs : Int)
  /-- `GetDBConn` has returned this. -/
  | got (conn : Option Ptr)
  deriving DecidableEq

inductive Action
  | getDBConn (timeoutMs : Int) (made : Made)
  | wake (timeout : Bool)
  | relDBConn
  deriving DecidableEq

/-- The end of `GetDBConn`; there is no first element of an empty list. -/
def take (s : CDBPool) : Option (CDBPool × Pc) :=
  match s.freeList with
  | [] => none
  | conn :: rest => some ({ s with freeList := rest, usedList := s.usedList ++ [conn] }, .got conn)

def getDBConn (s : CDBPool) (timeoutMs : Int) (made : Made) : Option (CDBPool × Pc) :=
  if s.abortRequest then some (s, .got none)
  else if s.freeList.isEmpty then
    if s.dbCurConnCnt ≥ s.dbMaxConnCnt then some (s, .waiting timeoutMs)
    else
      let s := s.make made.conn
      if made.ret ≠ 0 then some (s.delete made.conn, .got none)
      else take { s.pushFree (some made.conn) with dbCurConnCnt := s.dbCurConnCnt + 1 }
  else take s

/-- `GetDBConn` from the wait on, when the thread has the mutex again. -/
def wake (s : CDBPool) (timeoutMs : Int) (timeout : Bool) : Option (CDBPool × Pc) :=
  let ready := !s.freeList.isEmpty || s.abortRequest
  if timeoutMs ≤ 0 then
    if !ready then some (s, .waiting timeoutMs)
    else if s.abortRequest then some (s, .got none)
    else take s
  else if !ready && !timeout then some (s, .waiting timeoutMs)
  else if s.freeList.isEmpty then some (s, .got none)
  else if s.abortRequest then some (s, .got none)
  else take s

def relDBConn (s : CDBPool) (conn : Option Ptr) : CDBPool :=
  if conn ∈ s.freeList then s
  else { s with usedList := s.usedList.filter (· != conn) }.pushFree conn

/-- A client calls `GetDBConn`, and then `RelDBConn` on whatever it returned. -/
def step (s : CDBPool) : Pc → Action → Option (CDBPool × Pc)
  | .idle, .getDBConn timeoutMs made =>
    if made.conn ∈ s.created then none else getDBConn s timeoutMs made
  | .waiting timeoutMs, .wake timeout => wake s timeoutMs timeout
  | .got conn, .relDBConn => some (relDBConn s conn, .idle)
  | _, _ => none

def clients : Threads.Program CDBPool Pc Action where
  start s := ∃ maxConnCnt made, 1 ≤ maxConnCnt ∧
    init made MIN_DB_CONN_CNT.toNat 0 (.new maxConnCnt) = (s, 0)
  idle pc := pc = .idle
  step s pc action s' pc' := step s pc action = some (s', pc')

def Backed (pc : Pc) (action : Action) : Prop := ¬ (pc = .got none ∧ action = .relDBConn)

end LearningCode.DbPool
