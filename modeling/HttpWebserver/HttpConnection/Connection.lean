import HttpWebserver.Buffer.Buffer
import HttpWebserver.Reactor.Channel

/-!
# HttpConnection — the members of a connection

The model of the class in `HttpConnection/HttpConnection.h` with its constructor and `init`.

* A `char*` member is a `Ptr`: null, or a position in the storage of one of the connection's
  two buffers. A string the connection owns is a list of bytes.
* The constructor leaves several members uninitialised. `new` takes the object the storage
  held before, and those members keep its values.
* `poller` is the poller of `loop_`, which `channel_` updates.
-/

namespace HttpWebserver

inductive Method where
  | GET
  | POST
deriving DecidableEq, Repr

inductive HttpCode where
  | NO_REQUEST
  | GET_REQUEST
  | BAD_REQUEST
  | NO_RESOURCE
  | FORBIDDEN_REQUEST
  | FILE_REQUEST
  | INTERNAL_ERROR
  | CLOSED_CONNECTION
deriving DecidableEq, Repr

inductive CheckState where
  | CHECK_STATE_REQUESTLINE
  | CHECK_STATE_HEADER
  | CHECK_STATE_CONTENT
deriving DecidableEq, Repr

inductive LineStatus where
  | LINE_OK
  | LINE_BAD
  | LINE_OPEN
deriving DecidableEq, Repr

/-- A `char*`: null, or a position in the storage of the input or of the output buffer. -/
inductive Ptr where
  | null
  | input (off : Nat)
  | output (off : Nat)
deriving DecidableEq, Repr

namespace Ptr

/-- The position a pointer points at in its storage. -/
def off : Ptr → Nat
  | null => 0
  | input off => off
  | output off => off

/-- The pointer to another position of the same storage. -/
def moveTo (p : Ptr) (pos : Nat) : Ptr :=
  match p with
  | null => null
  | input _ => input pos
  | output _ => output pos

/-- `p + n`. -/
def add (p : Ptr) (n : Nat) : Ptr := p.moveTo (p.off + n)

end Ptr

/-- What `stat` fills in, as far as it is used. -/
structure FileStat where
  st_mode : BitVec 32
  st_size : Int
deriving DecidableEq, Repr

def S_IROTH : BitVec 32 := 0o4#32
def S_IFMT : BitVec 32 := 0o170000#32
def S_IFDIR : BitVec 32 := 0o040000#32

def S_ISDIR (mode : BitVec 32) : Bool := mode &&& S_IFMT == S_IFDIR

structure HttpConnection where
  channel : Channel
  poller : EpollPoller
  docRoot : List UInt8
  inputBuffer : Buffer
  outputBuffer : Buffer
  startLine : Ptr
  checkState : CheckState
  method : Method
  realFile : List UInt8
  bytesToSend : Int
  bytesHaveSend : Int
  fileStat : FileStat
  fileAddress : List UInt8
  writeVec : IoVec × IoVec
  writeIovcnt : Nat
  linger : Bool
  url : Ptr
  version : Ptr
  ContentLength : Int
  host : Ptr
  string : Ptr
  cgi : Int

namespace HttpConnection

/-- Zeroed storage, as an object that was never constructed in it. -/
def zeroed : HttpConnection where
  channel := Channel.new 0 0
  poller := EpollPoller.new
  docRoot := []
  inputBuffer := ⟨[], 0, 0⟩
  outputBuffer := ⟨[], 0, 0⟩
  startLine := .null
  checkState := .CHECK_STATE_REQUESTLINE
  method := .GET
  realFile := []
  bytesToSend := 0
  bytesHaveSend := 0
  fileStat := ⟨0#32, 0⟩
  fileAddress := []
  writeVec := (⟨.storage 0, 0⟩, ⟨.storage 0, 0⟩)
  writeIovcnt := 0
  linger := false
  url := .null
  version := .null
  ContentLength := 0
  host := .null
  string := .null
  cgi := 0

/-- Zeroed storage with an input buffer whose bytes have been passed over: both indices are back
behind the prepended bytes. -/
def passedOver (bytes : List UInt8) : HttpConnection :=
  { zeroed with
    inputBuffer := ⟨List.replicate kCheapPrepend 0 ++ bytes, kCheapPrepend,
      kCheapPrepend⟩ }

def readBufferSize : Nat := 2048
def writeBufferSize : Nat := 1024

/-- `channel_.enableReading()`. -/
def enableReading (c : HttpConnection) : HttpConnection :=
  let (poller, channel) := c.channel.enableReading c.poller
  { c with poller := poller, channel := channel }

/-- `channel_.enableWriting()`. -/
def enableWriting (c : HttpConnection) : HttpConnection :=
  let (poller, channel) := c.channel.enableWriting c.poller
  { c with poller := poller, channel := channel }

/-- The constructor, in the storage of `raw`. -/
def new (raw : HttpConnection) (this sockfd : Nat) (poller : EpollPoller) (root : List UInt8) :
    HttpConnection :=
  let c := { raw with
    channel := Channel.new this sockfd
    poller := poller
    docRoot := root
    inputBuffer := Buffer.new readBufferSize
    outputBuffer := Buffer.new writeBufferSize
    realFile := []
    fileAddress := [] }
  c.enableReading.enableWriting

/-- A new connection in zeroed storage, for the runs on fixed inputs. -/
def sampleConnection : HttpConnection := new zeroed 0 5 EpollPoller.new []

def init (c : HttpConnection) : HttpConnection :=
  { c with
    bytesToSend := 0
    bytesHaveSend := 0
    inputBuffer := c.inputBuffer.retrieveAll
    outputBuffer := c.outputBuffer.retrieveAll
    checkState := .CHECK_STATE_REQUESTLINE
    method := .GET
    startLine := .null }

/-! `enableReading` and `enableWriting` change the channel and the poller only. -/

section Frame

variable (c : HttpConnection)

@[simp] theorem enableReading_outputBuffer : c.enableReading.outputBuffer = c.outputBuffer := rfl
@[simp] theorem enableReading_fileAddress : c.enableReading.fileAddress = c.fileAddress := rfl
@[simp] theorem enableReading_bytesToSend : c.enableReading.bytesToSend = c.bytesToSend := rfl
@[simp] theorem enableReading_bytesHaveSend :
    c.enableReading.bytesHaveSend = c.bytesHaveSend := rfl
@[simp] theorem enableReading_writeVec : c.enableReading.writeVec = c.writeVec := rfl
@[simp] theorem enableReading_writeIovcnt : c.enableReading.writeIovcnt = c.writeIovcnt := rfl
@[simp] theorem enableWriting_outputBuffer : c.enableWriting.outputBuffer = c.outputBuffer := rfl
@[simp] theorem enableWriting_fileAddress : c.enableWriting.fileAddress = c.fileAddress := rfl
@[simp] theorem enableWriting_bytesToSend : c.enableWriting.bytesToSend = c.bytesToSend := rfl
@[simp] theorem enableWriting_bytesHaveSend :
    c.enableWriting.bytesHaveSend = c.bytesHaveSend := rfl
@[simp] theorem enableWriting_writeVec : c.enableWriting.writeVec = c.writeVec := rfl
@[simp] theorem enableWriting_writeIovcnt : c.enableWriting.writeIovcnt = c.writeIovcnt := rfl

end Frame

end HttpConnection

end HttpWebserver
