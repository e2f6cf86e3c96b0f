import AuraChain.KotlinText
import AuraChain.OrdMap
import AuraChain.Pieces

/-! The engine with which two browsers exchange messages and files: what it does
with one message of its peer, and what it sends for a file. All callbacks are
taken to be set, and an object URL stands for the blob behind it. -/

namespace AuraChain

inductive MediaType
  | text
  | image
  | video
  | audio
  | document
  deriving DecidableEq

structure Blob where
  bytes : Bytes
  type : Text
  deriving DecidableEq

/-- A hole between the parts is `undefined`, and turned into that string. -/
def Blob.new (parts : List (Option Bytes)) (type : Text) : Blob :=
  ⟨SparseArray.join (ascii "undefined") parts, type⟩

structure File where
  name : Text
  type : Text
  bytes : Bytes

def File.size (file : File) : Nat := file.bytes.length

def File.blob (file : File) : Blob := ⟨file.bytes, file.type⟩

structure FileMeta where
  fileId : Text
  fileName : Text
  fileSize : Nat
  fileType : Text
  mediaType : Option MediaType
  chunksTotal : Nat

/-- What comes over the data channel. A field that can be missing is an option. -/
inductive PeerData
  | chat (id text : Option Text) (timestamp : Option Nat)
  | voiceNote (id mimeType : Option Text) (audioData : Bytes) (timestamp : Option Nat)
  | ping (timestamp : Nat)
  | pong (timestamp : Nat)
  | fileMeta (fileMeta : FileMeta)
  | fileChunk (fileId : Text) (chunkIdx : Nat) (chunkBytes : Bytes)
  | speedChunk (size : Option Nat)
  | other

inductive MessageSender
  | self
  | peer
  deriving DecidableEq

inductive MessageType
  | chat
  | voiceNote
  deriving DecidableEq

structure PeerMessage where
  id : Text
  sender : MessageSender
  text : Option Text
  timestamp : Nat
  type : MessageType
  mediaType : MediaType
  audioUrl : Option Blob

structure FileTransferProgress where
  id : Text
  fileName : Text
  fileSize : Nat
  fileType : Text
  mediaType : MediaType
  receivedBytes : Nat
  progressPercent : Float
  isComplete : Bool
  downloadUrl : Option Blob
  previewUrl : Option Blob
  sender : MessageSender

structure LiveMeshDiagnostics where
  pingMs : Nat
  bytesSent : Nat
  bytesReceived : Nat
  realSpeedMbps : Float
  connected : Bool
  remotePeerId : Option Text

inductive EngineEvent
  | message (msg : PeerMessage)
  | fileProgress (progress : FileTransferProgress)
  | diagnostics (diag : LiveMeshDiagnostics)
  | send (data : PeerData)

structure FileBuffer where
  chunks : List (Option Bytes)
  fileMeta : FileMeta
  received : Nat

structure RealAuraMeshEngine where
  connection : Option Text
  bytesSent : Nat
  bytesReceived : Nat
  currentPing : Nat
  currentSpeedMbps : Float
  fileBuffers : OrdMap Text FileBuffer

/-- What the browser answers during one call. -/
structure Moment where
  now : Nat
  randomId : Text

/-- JavaScript's `||` on strings and on numbers, where a missing one is empty or zero. -/
def orText (text default : Text) : Text := if text = [] then default else text

def orNumber (number default : Nat) : Nat := if number = 0 then default else number

def hasExtension (name : Text) (extensions : List String) : Bool :=
  extensions.any fun extension => ('.' :: extension.toList).isSuffixOf name

/-- The lower case is that of the browser, for all of Unicode. -/
def detectMediaType (toLowerCase : Text → Text) (mimeType filename : Text) : MediaType :=
  let lowerMime := toLowerCase mimeType
  let lowerName := toLowerCase filename
  if "image/".toList.isPrefixOf lowerMime ||
      hasExtension lowerName ["jpg", "jpeg", "png", "gif", "webp", "svg"] then .image
  else if "video/".toList.isPrefixOf lowerMime ||
      hasExtension lowerName ["mp4", "webm", "mkv", "mov", "avi"] then .video
  else if "audio/".toList.isPrefixOf lowerMime ||
      hasExtension lowerName ["mp3", "wav", "ogg", "m4a", "aac", "webm"] then .audio
  else .document

def percentOf (part whole : Nat) : Float :=
  let rounded := (part.toFloat / whole.toFloat * 100).round
  if rounded > 100 then 100 else rounded

namespace RealAuraMeshEngine

def chunkSize : Nat := 16 * 1024

theorem chunkSize_pos : 0 < chunkSize := by decide

def emitDiagnostics (engine : RealAuraMeshEngine) : EngineEvent :=
  .diagnostics ⟨engine.currentPing, engine.bytesSent, engine.bytesReceived, engine.currentSpeedMbps,
    engine.connection.isSome, engine.connection⟩

/-- The bytes are counted each time they come, the chunks by the slots they fill. -/
def isComplete (entry : FileBuffer) : Bool :=
  entry.fileMeta.fileSize ≤ entry.received ||
    entry.fileMeta.chunksTotal ≤ SparseArray.filled entry.chunks

def receivedProgress (toLowerCase : Text → Text) (fileId : Text) (entry : FileBuffer) :
    FileTransferProgress :=
  let fileMeta := entry.fileMeta
  let url := if isComplete entry then
      some (Blob.new entry.chunks (orText fileMeta.fileType "application/octet-stream".toList))
    else none
  { id := fileId
    fileName := fileMeta.fileName
    fileSize := fileMeta.fileSize
    fileType := fileMeta.fileType
    mediaType := fileMeta.mediaType.getD (detectMediaType toLowerCase fileMeta.fileType fileMeta.fileName)
    receivedBytes := entry.received
    progressPercent := percentOf entry.received fileMeta.fileSize
    isComplete := isComplete entry
    downloadUrl := url
    previewUrl := url
    sender := .peer }

def startedProgress (toLowerCase : Text → Text) (fileMeta : FileMeta) : FileTransferProgress where
  id := fileMeta.fileId
  fileName := fileMeta.fileName
  fileSize := fileMeta.fileSize
  fileType := fileMeta.fileType
  mediaType := fileMeta.mediaType.getD (detectMediaType toLowerCase fileMeta.fileType fileMeta.fileName)
  receivedBytes := 0
  progressPercent := 0
  isComplete := false
  downloadUrl := none
  previewUrl := none
  sender := .peer

def handleIncomingData (toLowerCase : Text → Text) (moment : Moment) (engine : RealAuraMeshEngine) :
    PeerData → RealAuraMeshEngine × List EngineEvent
  | .chat id text timestamp =>
    let engine := { engine with
      bytesReceived := engine.bytesReceived + (text.map Text.length16).getD 0 }
    (engine, [.message ⟨orText (id.getD []) moment.randomId, .peer, text, orNumber (timestamp.getD 0) moment.now, .chat,
      .text, none⟩, engine.emitDiagnostics])
  | .voiceNote id mimeType audioData timestamp =>
    let engine := { engine with bytesReceived := engine.bytesReceived + audioData.length }
    let audioUrl := Blob.new [some audioData] (orText (mimeType.getD []) "audio/webm".toList)
    (engine, [.message ⟨orText (id.getD []) moment.randomId, .peer, some "🎤 Voice Message".toList,
      orNumber (timestamp.getD 0) moment.now, .voiceNote, .audio, some audioUrl⟩, engine.emitDiagnostics])
  | .ping timestamp =>
    (engine, if engine.connection.isSome then [.send (.pong timestamp)] else [])
  | .pong timestamp =>
    let engine := { engine with currentPing := max 1 (moment.now - timestamp) }
    (engine, [engine.emitDiagnostics])
  | .fileMeta fileMeta =>
    ({ engine with fileBuffers := engine.fileBuffers.insert fileMeta.fileId ⟨[], fileMeta, 0⟩ },
      [.fileProgress (startedProgress toLowerCase fileMeta)])
  | .fileChunk fileId chunkIdx chunkBytes =>
    match engine.fileBuffers[fileId]? with
    | none => (engine, [])
    | some entry =>
      let entry := { entry with
        chunks := SparseArray.set entry.chunks chunkIdx chunkBytes
        received := entry.received + chunkBytes.length }
      let engine := { engine with
        fileBuffers := engine.fileBuffers.insert fileId entry
        bytesReceived := engine.bytesReceived + chunkBytes.length }
      (engine, [.fileProgress (receivedProgress toLowerCase fileId entry), engine.emitDiagnostics])
  | .speedChunk size =>
    let engine := { engine with bytesReceived := engine.bytesReceived + size.getD 0 }
    (engine, [engine.emitDiagnostics])
  | .other => (engine, [])

def sentProgress (fileId : Text) (file : File) (mediaType : MediaType) (receivedBytes : Nat)
    (progressPercent : Float) (isComplete : Bool) : FileTransferProgress where
  id := fileId
  fileName := file.name
  fileSize := file.size
  fileType := file.type
  mediaType := mediaType
  receivedBytes := receivedBytes
  progressPercent := progressPercent
  isComplete := isComplete
  downloadUrl := some file.blob
  previewUrl := some file.blob
  sender := .self

/-- The loop over the chunks, for any size of a chunk. -/
def sendChunks {size : Nat} (hpos : 0 < size) (fileId : Text) (file : File) (mediaType : MediaType)
    (engine : RealAuraMeshEngine) (offset chunkIdx : Nat) : RealAuraMeshEngine × List EngineEvent :=
  if offset < file.size then
    let slice := (file.bytes.drop offset).take size
    let sent := min (offset + size) file.size
    let progress := sentProgress fileId file mediaType sent (percentOf sent file.size)
      (file.size ≤ offset + size)
    let engine := { engine with bytesSent := engine.bytesSent + slice.length }
    let (last, events) :=
      sendChunks hpos fileId file mediaType engine (offset + size) (chunkIdx + 1)
    (last, .send (.fileChunk fileId chunkIdx slice) :: .fileProgress progress ::
      engine.emitDiagnostics :: events)
  else (engine, [])
termination_by file.size - offset

/-- Nothing else happens to the engine while it waits between two chunks. -/
def sendRealFile (toLowerCase : Text → Text) (moment : Moment) (engine : RealAuraMeshEngine)
    (file : File) : RealAuraMeshEngine × List EngineEvent :=
  if engine.connection.isSome then
    let totalChunks := Pieces.count chunkSize file.bytes
    let fileId := moment.randomId
    let mediaType := detectMediaType toLowerCase file.type file.name
    let (last, events) := sendChunks chunkSize_pos fileId file mediaType engine 0 0
    (last, .send (.fileMeta ⟨fileId, file.name, file.size,
        orText file.type "application/octet-stream".toList, some mediaType, totalChunks⟩) ::
      .fileProgress (sentProgress fileId file mediaType 0 0 false) :: events)
  else (engine, [])

def sentData (events : List EngineEvent) : List PeerData :=
  events.filterMap fun event =>
    match event with
    | .send data => some data
    | _ => none

def reports (events : List EngineEvent) : List FileTransferProgress :=
  events.filterMap fun event =>
    match event with
    | .fileProgress progress => some progress
    | _ => none

/-- The messages of the peer, one after the other. -/
def receiveAll (toLowerCase : Text → Text) (engine : RealAuraMeshEngine) :
    List (Moment × PeerData) → RealAuraMeshEngine × List EngineEvent
  | [] => (engine, [])
  | (moment, data) :: rest =>
    let (next, events) := engine.handleIncomingData toLowerCase moment data
    let (last, later) := receiveAll toLowerCase next rest
    (last, events ++ later)

end RealAuraMeshEngine

end AuraChain
