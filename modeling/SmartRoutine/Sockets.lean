import SmartRoutine.CallErrno

/-!
# `TcpSocket` and `Acceptor`

The operations as the code computes them, for a given outcome of the system call they make.  Each
leaves the object, `ec`, and the list of the system calls on descriptors in the order in which they
were made.

The outcome of `smart_connect`, `smart_accept`, `smart_read` and `smart_write` is what the call
returns; `read_until` runs its handler.
-/

set_option autoImplicit false

namespace SmartRoutine

def EPERM : Int := 1
def ENOMEM : Int := 12
def EACCES : Int := 13
def EINVAL : Int := 22
def ENFILE : Int := 23
def EMFILE : Int := 24
def EADDRINUSE : Int := 98
def ECONNABORTED : Int := 103
def ENOBUFS : Int := 105

/-- A system call with its outcome. -/
inductive SysCall where
  | socket (ret : Int)
  | bind (fd : Int) (ok : Bool)
  | connect (fd : Int) (ok : Bool)
  | listen (fd : Int) (ok : Bool)
  | accept (fd ret : Int)
  | setsockopt (fd : Int) (ok : Bool)
  | close (fd : Int)
  deriving DecidableEq, Repr

/-- What an operation leaves. -/
structure Done (σ : Type) where
  state : σ
  ec : CodeVal
  calls : List SysCall
  deriving DecidableEq, Repr

/-- The chain of tests on `errno` after a failed call; an `errno` that no test asks for is logged
and leaves `ec` alone. -/
def translate (table : List (Int × CodeVal)) (errno : Int) (ec : CodeVal) : CodeVal :=
  (table.lookup errno).getD ec

def openErrors : List (Int × CodeVal) :=
  [(EMFILE, .insufficientResources), (ENFILE, .insufficientResources), (ENOBUFS, .outOfMemory),
    (ENOMEM, .outOfMemory)]

def bindErrors : List (Int × CodeVal) := [(EACCES, .permissionDenied), (EADDRINUSE, .addressInUse)]

def connectErrors : List (Int × CodeVal) :=
  [(EACCES, .permissionDenied), (EPERM, .permissionDenied), (EADDRINUSE, .addressInUse)]

def listenErrors : List (Int × CodeVal) := [(EADDRINUSE, .addressInUse)]

def acceptErrors : List (Int × CodeVal) :=
  [(ECONNABORTED, .connectionAborted), (EMFILE, .insufficientResources),
    (ENFILE, .insufficientResources), (EINVAL, .invalidArgument), (ENOBUFS, .outOfMemory),
    (ENOMEM, .outOfMemory), (EPERM, .permissionDenied)]

/-- The handler of `smart_read_until` asks for the size of `tmp_buf`. -/
def ReadUntilContext.allows (_ : ReadUntilContext) (r : ReadResult) : Bool := r.value ≤ 64

/-- `smart_read_until`, in a coroutine or on another thread: what it returns, `ec`, and the
buffer. -/
def smartReadUntilCall (env : BufferEnv) (coroutine : Bool) (fd : Int) (buffer : DynamicBuffer)
    (delim : List UInt8) (outcomes : List ReadResult) (ec : CodeVal) :
    Option (Int × CodeVal × DynamicBuffer) :=
  if coroutine then
    ((smartReadUntil env).await ReadUntilContext.allows (.new fd buffer delim) outcomes).map fun ctx =>
      (ctx.ret, if ctx.ret < 0 then ctx.ec else ec, ctx.buffer)
  else some (-1, ec, buffer)

/-! ## `TcpSocket` -/

structure TcpSocket where
  socket : Int
  opened : Bool
  bound : Bool
  connected : Bool
  deriving DecidableEq, Repr

namespace TcpSocket

def new : TcpSocket := ⟨-1, false, false, false⟩

/-- `TcpSocket(TcpSocket &&)`: the new object and what is left of `other`. -/
def move (other : TcpSocket) : TcpSocket × TcpSocket := (other, ⟨-1, false, false, false⟩)

/-- `~TcpSocket`. -/
def destroy (s : TcpSocket) : List SysCall := if s.socket ≥ 0 then [.close s.socket] else []

def open_ (s : TcpSocket) (r : Returned) (ec : CodeVal) : Done TcpSocket :=
  if s.opened then ⟨s, .invalidArgument, []⟩
  else
    let s := { s with socket := r.value }
    if s.socket < 0 then ⟨s, translate openErrors r.errno ec, [.socket r.value]⟩
    else ⟨{ s with opened := true }, ec, [.socket r.value]⟩

/-- `addr`: the endpoint has an address of a supported family. -/
def bind (s : TcpSocket) (addr : Bool) (r : Returned) (ec : CodeVal) : Done TcpSocket :=
  if !s.opened || s.bound then ⟨s, .invalidArgument, []⟩
  else if !addr then ⟨s, .invalidArgument, []⟩
  else if r.value < 0 then ⟨s, translate bindErrors r.errno ec, [.bind s.socket false]⟩
  else ⟨{ s with bound := true }, ec, [.bind s.socket true]⟩

def connect (s : TcpSocket) (r : Returned) (ec : CodeVal) : Done TcpSocket :=
  if !s.opened || s.connected then ⟨s, .invalidArgument, []⟩
  else if r.value < 0 then ⟨s, translate connectErrors r.errno ec, [.connect s.socket false]⟩
  else ⟨{ s with connected := true }, ec, [.connect s.socket true]⟩

/-- The result of `::close` is not looked at. -/
def close (s : TcpSocket) (ec : CodeVal) : Done TcpSocket :=
  if !s.opened then ⟨s, .invalidArgument, []⟩
  else if s.socket ≥ 0 then ⟨⟨-1, false, false, false⟩, ec, [.close s.socket]⟩
  else ⟨s, ec, []⟩

def setAcceptedFd (s : TcpSocket) (fd : Int) : TcpSocket × List SysCall :=
  (⟨fd, true, true, true⟩, if s.socket ≥ 0 then [.close s.socket] else [])

/-- What `read` and `write` return, and `ec`. -/
def transfer (s : TcpSocket) (r : Returned) (ec : CodeVal) : Int × CodeVal :=
  if !s.opened || !s.connected then (-1, .invalidArgument) else (toInt r.value, ec)

def read (s : TcpSocket) (r : Returned) (ec : CodeVal) : Int × CodeVal := s.transfer r ec

def write (s : TcpSocket) (r : Returned) (ec : CodeVal) : Int × CodeVal := s.transfer r ec

def readUntil (env : BufferEnv) (coroutine : Bool) (s : TcpSocket) (buffer : DynamicBuffer)
    (delim : List UInt8) (outcomes : List ReadResult) (ec : CodeVal) :
    Option (Int × CodeVal × DynamicBuffer) :=
  if !s.opened || !s.connected then some (-1, .invalidArgument, buffer)
  else smartReadUntilCall env coroutine s.socket buffer delim outcomes ec

end TcpSocket

/-! ## `Acceptor` -/

structure Acceptor extends TcpSocket where
  listening : Bool
  deriving DecidableEq, Repr

namespace Acceptor

def new : Acceptor := ⟨.new, false⟩

/-- The implicit move constructor moves the base and copies `listening_`. -/
def move (other : Acceptor) : Acceptor × Acceptor :=
  let r := other.toTcpSocket.move
  (⟨r.1, other.listening⟩, ⟨r.2, other.listening⟩)

def listen (a : Acceptor) (r : Returned) (ec : CodeVal) : Done Acceptor :=
  if !a.opened || a.listening then ⟨a, .invalidArgument, []⟩
  else if r.value < 0 then ⟨a, translate listenErrors r.errno ec, [.listen a.socket false]⟩
  else ⟨{ a with listening := true }, ec, [.listen a.socket true]⟩

/-- The state that is left is that of `peer`, which may be the acceptor's own base. -/
def accept (a : Acceptor) (peer : TcpSocket) (r : Returned) (ec : CodeVal) : Done TcpSocket :=
  if !a.opened || !a.listening then ⟨peer, .invalidArgument, []⟩
  else if r.value < 0 then ⟨peer, translate acceptErrors r.errno ec, [.accept a.socket r.value]⟩
  else
    let p := peer.setAcceptedFd r.value
    ⟨p.1, ec, .accept a.socket r.value :: p.2⟩

def setAddressReuse (a : Acceptor) (r : Returned) (ec : CodeVal) : Done Acceptor :=
  if !a.opened then ⟨a, .invalidArgument, []⟩
  else ⟨a, ec, [.setsockopt a.socket (r.value ≥ 0)]⟩

end Acceptor

end SmartRoutine
