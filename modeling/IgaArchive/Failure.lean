import IgaArchive.Directory.Decode
import IgaArchive.Directory.Encode
import IgaArchive.Directory.Range
import IgaArchive.EntryName
import IgaArchive.Lz4.Frame
import IgaArchive.Payload.Transfer
import IgaArchive.Store.Basic

/-!
Failures of archive operations. A failure is a cause, wrapped in the steps during which it arose; its
message names the steps from the outside in, and its kind is that of the cause.
-/

namespace IgaArchive

inductive Step where
  | readSignature
  | readHeader
  | readEntryTable
  | readNameBlock
  | readPayload
  | writePayload
  | openArchive
  | readFrameMagic
  | unwrapFrame
  | digest (name : Bytes)
  | createOutputDirectory
  | create (path : Bytes)
  | extract (name : Bytes)
  | close (path : Bytes)
  | statInput
  | createOutput
  | writeDirectory
  | openInput
  | compress (path : Bytes)
  | closeFrame
  | flushOutput
  | closeOutput
  | createLogDirectory
  deriving DecidableEq, Repr

def Step.message : Step → Bytes
  | .readSignature => utf8 "read signature"
  | .readHeader => utf8 "read header"
  | .readEntryTable => utf8 "read entry table"
  | .readNameBlock => utf8 "read name block"
  | .readPayload => utf8 "read payload"
  | .writePayload => utf8 "write payload"
  | .openArchive => utf8 "open archive"
  | .readFrameMagic => utf8 "read frame magic"
  | .unwrapFrame => utf8 "unwrap lz4 frame"
  | .digest name => utf8 "digest " ++ name
  | .createOutputDirectory => utf8 "create output directory"
  | .create path => utf8 "create " ++ path
  | .extract name => utf8 "extract " ++ name
  | .close path => utf8 "close " ++ path
  | .statInput => utf8 "stat input"
  | .createOutput => utf8 "create output"
  | .writeDirectory => utf8 "write directory"
  | .openInput => utf8 "open input"
  | .compress path => utf8 "compress " ++ path
  | .closeFrame => utf8 "close lz4 writer"
  | .flushOutput => utf8 "flush output"
  | .closeOutput => utf8 "close output"
  | .createLogDirectory => utf8 "create log dir"

inductive Failure where
  | endOfInput
  | unexpectedEnd
  | varUintOverflow
  | signature (got : Vector UInt8 4)
  | outOfRange (error : Directory.OutOfRange)
  | headerTooShort (error : Header.TooShort)
  | block (error : Directory.BlockError)
  | entryName (refusal : EntryName.Refusal)
  | notAFrame
  | frameTooLarge (limit : Nat)
  | frame (error : Lz4.Error)
  | noFileName (path : Bytes)
  | notRegular (path : Bytes)
  | bufferSize (size : Int)
  | layout (error : Directory.LayoutError)
  | store (fault : Fault)
  | basinFull
  | during (step : Step) (failure : Failure)
  deriving DecidableEq, Repr

namespace Failure

/-- The kinds of failure a caller can tell apart. -/
inductive Kind where
  | signature
  | range
  | format
  | invalidName
  | bufferSize
  | tooLarge
  | notFound
  | unexpectedEnd
  | endOfInput
  | basinFull
  | frame
  | other
  deriving DecidableEq, Repr

def kind : Failure → Kind
  | .endOfInput => .endOfInput
  | .unexpectedEnd => .unexpectedEnd
  | .varUintOverflow => .format
  | .signature _ => .signature
  | .outOfRange _ => .range
  | .headerTooShort _ => .format
  | .block _ => .format
  | .entryName _ => .format
  | .notAFrame => .format
  | .frameTooLarge _ => .tooLarge
  | .frame .unexpectedEnd => .unexpectedEnd
  | .frame _ => .frame
  | .noFileName _ => .invalidName
  | .notRegular _ => .other
  | .bufferSize _ => .bufferSize
  | .layout (.lengthMismatch ..) => .other
  | .layout _ => .tooLarge
  | .store fault => if fault.errno = .notFound then .notFound else .other
  | .basinFull => .basinFull
  | .during _ failure => failure.kind

def message : Failure → Bytes
  | .endOfInput => VarUint.ReadError.endOfInput.message
  | .unexpectedEnd => VarUint.ReadError.unexpectedEnd.message
  | .varUintOverflow => VarUint.ReadError.overflow.message
  | .signature got => utf8 "unexpected signature: 0x" ++ got.toList.flatMap Numeral.hexByteUpper
  | .outOfRange error => error.message
  | .headerTooShort error => error.message
  | .block error => error.message
  | .entryName refusal => refusal.message
  | .notAFrame => utf8 "malformed archive: not an lz4 frame"
  | .frameTooLarge limit =>
    utf8 "value does not fit in 32 bits: lz4 frame holds more than " ++ Numeral.decimal limit ++
      utf8 " bytes"
  | .frame error => error.message
  | .noFileName path => utf8 "invalid entry name: " ++ Quoted.text path
  | .notRegular path => utf8 "input " ++ path ++ utf8 ": not a regular file"
  | .bufferSize size =>
    utf8 "buffer size must be a positive multiple of 256: " ++ Numeral.signed size
  | .layout error => error.message
  | .store fault => fault.message
  | .basinFull => Payload.BasinFull.full.message
  | .during step failure => step.message ++ utf8 ": " ++ failure.message

def ofVarUint : VarUint.ReadError → Failure
  | .endOfInput => .endOfInput
  | .unexpectedEnd => .unexpectedEnd
  | .overflow => .varUintOverflow

/-- Input that is missing from its start on has ended; other missing input ended too soon. -/
def ofMissing (atStart : Bool) : Failure :=
  if atStart then .endOfInput else .unexpectedEnd

def ofHeader : Header.ReadError → Failure
  | .signatureCut atStart => .during .readSignature (ofMissing atStart)
  | .signature got => .signature got
  | .restCut atStart => .during .readHeader (ofMissing atStart)

def ofDirectory : Directory.ReadError → Failure
  | .header error => ofHeader error
  | .tableBlock error => .during .readEntryTable (ofVarUint error)
  | .nameBlock error => .during .readNameBlock (ofVarUint error)
  | .block error => .block error

def ofTransfer {ε : Type} (ofWrite : ε → Failure) : Payload.TransferError ε → Failure
  | .shortRead => .during .readPayload .unexpectedEnd
  | .write error => .during .writePayload (ofWrite error)

end Failure

def Payload.checkBuffer (size : Int) : Except Failure Unit :=
  if ValidBuffer size then .ok () else .error (.bufferSize size)

def memberName (path : Bytes) : Except Failure Bytes :=
  match Path.fileName? path with
  | some name => .ok name
  | none => .error (.noFileName path)

end IgaArchive
