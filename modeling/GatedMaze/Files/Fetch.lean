import GatedMaze.Files

/-!
# Requests answered from files

Of all kinds of requests only those for files can be answered, since no request here names a host.
A file is looked for under its name as it stands once the percent signs are taken back: idle names
are walked too, and lead on from directories only.
-/

namespace GatedMaze

/-- The name of the file that a request asks for. -/
def Request.fileName (r : Request) : Except Fault String :=
  match r.kind with
  | "file" =>
    let name := Text.percentDecode r.selector
    if Text.hasNull name then .error .nullCharacter else .ok name
  | "http" | "https" => .error (.notFetched .noHost)
  | "ftp" => .error (.notFetched .noTransferHost)
  | kind => .error (.notFetched (.unknownKind kind))

namespace Files

/-- The plain names that a text leads to, with every name in it walked. -/
def locateText (fs : Files) (cwd : Path) (text : String) : Except FileTrouble (List String) :=
  if text.isEmpty then .error .missing
  else if pathLimit < text.utf8ByteSize then .error .nameTooLong
  else
    fs.descend (if text.startsWith "/" then [] else cwd.names)
      ((Path.pieces text.toList).map String.ofList)

/-- The bytes that a request is answered with. -/
def fetch (fs : Files) (cwd : Path) (r : Request) : Except Fault (List UInt8) :=
  match r.fileName with
  | .error e => .error e
  | .ok name =>
    match (fs.locateText cwd name).map fs.node with
    | .error t => .error (.notFetched (.file t name))
    | .ok .dir => .error (.notFetched (.file .isDirectory name))
    | .ok .nothing => .error (.notFetched (.file .missing name))
    | .ok (.file bytes) => .ok bytes

end Files

end GatedMaze
