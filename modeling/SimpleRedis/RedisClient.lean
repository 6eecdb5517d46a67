import SimpleRedis.RedisReader
import SimpleRedis.RespCommand
import SimpleRedis.WriteLife

/-!
# The Redis client

`SimpleRedisClient` sends commands over several sockets and keeps a queue of
promises for each of them. `System` is the client with the loops that serve its
sockets and the server behind them. A socket is known by its descriptor, which it
keeps as long as the client lives, and the promise of a call of `execute` by the
number of calls before it. What belongs to one descriptor is on one loop only, so
that the loops together are one `Execution`.

Replies are parsed whole: no read ends where an element of an array is due, which
would tear the reply. `cleanCuts` says so.
-/
namespace SimpleRedis.Redis

open Net Resp TransitionRun

/-- The functions that the client gives to the loops, with what they capture. -/
inductive Closure where
  | written (client : Fd) (promise : ℕ)
  | read (client : Fd)
  deriving DecidableEq, Repr

/-- What a promise is set to. -/
inductive Outcome where
  | value (v : RESPValue)
  | writeError
  | tooManyBytes

/-- A call of `ClientImpl::execute`. -/
structure Call where
  client : Fd
  args : List (List CChar)

/-- The tasks that the client posts to the loop of a socket. -/
inductive Task where
  | asyncWriteOnce (promise : ℕ) (args : List (List CChar))
  | close

/-- The part of a `RedisConnection` that `execute` and `read` use. -/
structure Channel where
  promises : List ℕ
  highLevel : Bool

/-- What the server does on a connection: its answers in the order of the commands,
those of them that the client has not parsed, and their bytes on the way. -/
structure Server where
  answers : List RESPValue
  replies : List RESPValue
  bytes : List CChar

/-- A well-formed reply. -/
abbrev Reply (memory : Memory) := {v : RESPValue // v.WellFormed memory}

/-- The sockets of a client, `std::hash<std::size_t>`, and the memory for the replies. -/
structure Setup where
  sockets : List Fd
  hash : ℕ → ℕ
  memory : Memory
  ne : sockets ≠ []
  nodup : sockets.Nodup

/-- `which_sock`. -/
def Setup.whichSock (setup : Setup) (counter : ℕ) : Fd :=
  setup.sockets.get ⟨setup.hash counter % setup.sockets.length,
    Nat.mod_lt _ (List.length_pos_iff.mpr setup.ne)⟩

/-- The loops behind `connect`, which registers every socket for reading. -/
def Setup.connect (setup : Setup) : EventLoopThread Closure :=
  setup.sockets.foldl (fun loop fd => loop.doRegisterRead fd fd (some (.read fd))) .fresh

structure System (Θ : Type*) where
  exec : Execution Closure
  counter : Θ → ℕ
  calls : List Call
  tasks : Fd → List Task
  clients : Fd → Channel
  resolved : List (ℕ × Outcome)
  starved : Bool
  server : Fd → Server

/-- What a thread, a loop, the kernel or the server does next. -/
inductive Act (memory : Memory) (Θ : Type*) where
  | execute (thread : Θ) (args : List (List CChar))
  | close (fd : Fd)
  | runTask (fd : Fd)
  | handleRead (fd : Fd) (outcome : ReadOutcome)
  | handleWrite (fd : Fd) (outcome : WriteOutcome)
  | hangUp (fd : Fd)
  | answer (fd : Fd) (reply : Reply memory)

/-- What `execute` submits to a connection. -/
def command (fd : Fd) (promise : ℕ) (args : List (List CChar)) : Submission Closure :=
  ⟨buildRESPCommand args, some (.once (.written fd promise))⟩

def Task.op (fd : Fd) : Task → Op Closure
  | .asyncWriteOnce promise args =>
      .writeOnce fd fd (some (.written fd promise)) (buildRESPCommand args)
  | .close => .close fd

/-- The first of the lives of a descriptor. -/
def firstLife (lives : Lives Closure) : Life Closure := lives.ended.head?.getD lives.current

/-- How many of the submitted buffers the first `n` bytes hold completely. -/
def received : List (Submission Closure) → ℕ → ℕ
  | [], _ => 0
  | s :: rest, n =>
      if s.buffer.length ≤ n then received rest (n - s.buffer.length) + 1 else 0

namespace System

variable {Θ : Type*}

def initial (setup : Setup) : System Θ where
  exec := { loop := setup.connect, trace := [] }
  counter _ := 0
  calls := []
  tasks _ := []
  clients _ := { promises := [], highLevel := false }
  resolved := []
  starved := false
  server _ := { answers := [], replies := [], bytes := [] }

def setTasks (s : System Θ) (fd : Fd) (tasks : List Task) : System Θ :=
  { s with tasks := Function.update s.tasks fd tasks }

def setPromises (s : System Θ) (fd : Fd) (promises : List ℕ) : System Θ :=
  { s with clients := Function.update s.clients fd { s.clients fd with promises := promises } }

def setServer (s : System Θ) (fd : Fd) (server : Server) : System Θ :=
  { s with server := Function.update s.server fd server }

/-- `ClientImpl::execute`. The promise that it returns is the number of the call. -/
def execute [DecidableEq Θ] (setup : Setup) (s : System Θ) (thread : Θ)
    (args : List (List CChar)) : System Θ :=
  let counter := (s.counter thread + 1) % 2 ^ 64
  let fd := setup.whichSock counter
  let called : System Θ := { s with
    counter := Function.update s.counter thread counter
    calls := s.calls ++ [⟨fd, args⟩] }
  if (s.clients fd).highLevel then
    { called with resolved := s.resolved ++ [(s.calls.length, .tooManyBytes)] }
  else called.setTasks fd (s.tasks fd ++ [.asyncWriteOnce s.calls.length args])

/-- The callback that `execute` has given to the write of its command. -/
def deliver (s : System Θ) : Effect Closure → System Θ
  | .wrote _ (.once (.written client promise)) true =>
      s.setPromises client ((s.clients client).promises ++ [promise])
  | .wrote _ (.once (.written _ promise)) false =>
      { s with resolved := s.resolved ++ [(promise, .writeError)] }
  | _ => s

/-- A step of a loop and the write callbacks that it invokes. -/
def run (s : System Θ) (op : Op Closure) : Option (System Θ) :=
  (s.exec.step op).map fun exec => (s.exec.loop.exec op).2.foldl deliver { s with exec := exec }

/-- The client whose read callback `handleRead` calls, with the arguments. -/
def readCall (s : System Θ) (fd : Fd) (outcome : ReadOutcome) : Option (Fd × List CChar × ℕ) :=
  (s.exec.loop.connections fd).bind fun conn =>
    match conn.readCb, outcome with
    | some (.read client), .bytes chunk =>
        let filled := conn.readBuffer.fill chunk
        some (client, filled.buffer, filled.dataSize)
    | some (.read client), .zero => some (client, conn.readBuffer.buffer, 0)
    | _, _ => none

/-- What `ClientImpl::read` has done to its connection and to the promises. -/
def finishRead (s : System Θ) (client : Fd) (r : ReadResult ℕ) : System Θ :=
  let s := s.setPromises client r.promises
  { s with
    resolved := s.resolved ++ r.resolved.map fun p => (p.1, .value p.2)
    starved := s.starved || r.starved }

/-- `handleRead` with the read callback in it. -/
def handleRead (memory : Memory) (s : System Θ) (fd : Fd) (outcome : ReadOutcome) :
    Option (System Θ) :=
  match s.readCall fd outcome with
  | none => s.run (.handleRead fd outcome 0)
  | some (client, buf, size) =>
      (read memory (s.clients client).promises buf size).bind fun r =>
        (s.finishRead client r).run (.handleRead fd outcome r.returned)

/-- The bytes that `socket->read` gives are the next ones that the server has sent,
and they end cleanly. Nothing is known of the bytes that a connection without a read
callback drops. -/
def arrive (s : System Θ) (fd : Fd) (outcome : ReadOutcome) : Option (System Θ) :=
  match outcome, s.exec.loop.connections fd with
  | .bytes chunk, some conn =>
      if conn.readCb = none then some s
      else
        let server := s.server fd
        let pending := conn.readBuffer.dataSize
        if chunk <+: server.bytes ∧
            cleanCuts conn.readBuffer.size server.replies pending [chunk.length] then
          some (s.setServer fd { server with
            replies := (reach server.replies (pending + chunk.length)).rest
            bytes := server.bytes.drop chunk.length })
        else none
  | _, _ => some s

/-- The server answers the next command that it has received completely. -/
def answer {memory : Memory} (s : System Θ) (fd : Fd) (reply : Reply memory) :
    Option (System Θ) :=
  let server := s.server fd
  let life := firstLife (livesOf fd s.exec.trace)
  if server.answers.length < received life.submitted life.accepted.length then
    some (s.setServer fd {
      answers := server.answers ++ [reply.val]
      replies := server.replies ++ [reply.val]
      bytes := server.bytes ++ reply.val.enc })
  else none

def step [DecidableEq Θ] (setup : Setup) (s : System Θ) : Act setup.memory Θ → Option (System Θ)
  | .execute thread args => some (s.execute setup thread args)
  | .close fd => some (s.setTasks fd (s.tasks fd ++ [.close]))
  | .runTask fd =>
      match s.tasks fd with
      | [] => none
      | task :: tasks => (s.setTasks fd tasks).run (task.op fd)
  | .handleRead fd outcome => (s.arrive fd outcome).bind (·.handleRead setup.memory fd outcome)
  | .handleWrite fd outcome => s.run (.handleWrite fd outcome)
  | .hangUp fd => s.run (.close fd)
  | .answer fd reply => s.answer fd reply

end System

end SimpleRedis.Redis
