import GatedMaze.Fault
import GatedMaze.Files.Account
import GatedMaze.Text.Blank

/-!
# Files held in memory

A directory tree as a value, for commands that read and write files. A path is walked name by name:
a name leads on only from a directory, a double dot leads back, and a path that leads nowhere is
refused with the first trouble it meets.
-/

namespace GatedMaze

/-- The files of a tree, by the names that lead to them from its root, and its directories. What
holds a file or a directory is a directory too. -/
structure Files where
  files : List (List String × List UInt8)
  dirs : List (List String)

/-- What names lead to. -/
inductive Node where
  | file (bytes : List UInt8)
  | dir
  | nothing

namespace Files

/-- The empty device: whatever is written to it is gone. -/
def emptyDevice : List String := ["dev", "null"]

/-- The directory that the system fills by itself, so that nothing can be made in it. -/
def systemDir : List String := ["proc"]

/-- The file of the accounts. -/
def accountsFile : List String := ["etc", "passwd"]

/-- What every system has: the directories below its root, the empty device and the accounts. -/
def bare : Files where
  files :=
    [(emptyDevice, []),
     (accountsFile, (String.join (standardAccounts.map (· ++ "\n"))).toUTF8.toList)]
  dirs :=
    [systemDir, ["bin"], ["boot"], ["home"], ["lib"], ["media"], ["mnt"], ["opt"], ["root"],
     ["run"], ["sbin"], ["srv"], ["sys"], ["tmp"], ["usr", "bin"], ["usr", "games"],
     ["usr", "include"], ["usr", "lib"], ["usr", "local", "bin"], ["usr", "local", "lib"],
     ["usr", "sbin"], ["usr", "share"], ["usr", "src"], ["var", "backups"], ["var", "cache"],
     ["var", "lib"], ["var", "local"], ["var", "log"], ["var", "mail"], ["var", "opt"],
     ["var", "spool"], ["var", "tmp"]]

/-- The most bytes of one name. -/
def nameLimit : Nat := 255

/-- The most bytes of a whole path. -/
def pathLimit : Nat := 4095

/-- How many missing directories above one another can be made at once. -/
def nestingLimit : Nat := 990

/-- What stands at the end of plain names. -/
def node (fs : Files) (names : List String) : Node :=
  match fs.files.lookup names with
  | some bytes => .file bytes
  | none =>
    if names.isEmpty || fs.dirs.any (names.isPrefixOf ·)
        || fs.files.any (fun f => names.isPrefixOf f.1) then .dir
    else .nothing

/-- The plain names that one more name leads to from a directory. -/
def enter (fs : Files) (here : List String) (name : String) : Except FileTrouble (List String) :=
  match fs.node here with
  | .file _ => .error .notDirectory
  | .nothing => .error .missing
  | .dir =>
    if Path.isIdle name then .ok here
    else if name = ".." then .ok here.dropLast
    else if nameLimit < name.utf8ByteSize then .error .nameTooLong
    else .ok (here ++ [name])

/-- The plain names that names lead to, one after the other, from a directory. -/
def descend (fs : Files) : List String → List String → Except FileTrouble (List String)
  | here, [] => .ok here
  | here, n :: ns =>
    match fs.enter here n with
    | .error t => .error t
    | .ok next => fs.descend next ns

/-- Where a path starts, for a working directory `cwd`. -/
def origin (cwd p : Path) : List String := if p.isAbsolute then [] else cwd.names

/-- The plain names that a path leads to. -/
def locate (fs : Files) (cwd p : Path) : Except FileTrouble (List String) :=
  if pathLimit < p.text.utf8ByteSize then .error .nameTooLong else fs.descend (origin cwd p) p.names

/-- What a path leads to. -/
def find (fs : Files) (cwd p : Path) : Except FileTrouble Node := (fs.locate cwd p).map fs.node

/-- Whether a path leads to a directory. -/
def isDir (fs : Files) (cwd p : Path) : Bool :=
  match fs.find cwd p with
  | .ok .dir => true
  | _ => false

/-- A step of the file system for a path, whose trouble is reported with the path. -/
def forPath {α : Type} (p : Path) (step : Except FileTrouble α) : Except Fault α :=
  if p.hasNull then .error .nullCharacter
  else
    match step with
    | .error t => .error (.file t p.text)
    | .ok a => .ok a

/-- The bytes of a file. -/
def read (fs : Files) (cwd p : Path) : Except Fault (List UInt8) :=
  forPath p do
    match ← fs.find cwd p with
    | .file bytes => pure bytes
    | .dir => throw .isDirectory
    | .nothing => throw .missing

/-- The text of a file, with all line ends as line feeds. -/
def decodeText (bytes : List UInt8) : Except Fault String :=
  match Text.Utf8.decode bytes with
  | .error d => .error (.notUnicode d)
  | .ok text => .ok (String.ofList (Text.unifyLineEnds text))

/-- The text of a file that is read as text. -/
def readText (fs : Files) (cwd p : Path) : Except Fault String :=
  fs.read cwd p >>= decodeText

/-- The names in a directory. -/
def entries (fs : Files) (here : List String) : List String :=
  let below := (fs.files.map (·.1) ++ fs.dirs).filterMap fun names =>
    if here.isPrefixOf names then (names.drop here.length).head? else none
  below.eraseDups

/-- What stands in a directory under names that end in `suffix`, sorted; nothing for a path that
leads to no directory. -/
def listing (fs : Files) (cwd dir : Path) (suffix : String) : Except Fault (List Path) :=
  if dir.hasNull then .ok []
  else
    match fs.locate cwd dir with
    | .error .nameTooLong => .error (.file .nameTooLong dir.text)
    | .error _ => .ok []
    | .ok here =>
      let found := (fs.entries here).filter fun n =>
        n.toList.reverse.take suffix.length = suffix.toList.reverse
      .ok ((found.mergeSort fun a b => !(b < a)).map fun n =>
        { dir with names := dir.names ++ [n] })

/-- The plain names under which something new would stand, in a directory that is there; none for
a path that ends in a double dot or has no names, which leads to a directory if anywhere. -/
def seat (fs : Files) (cwd p : Path) : Except FileTrouble (Option (List String)) :=
  if pathLimit < p.text.utf8ByteSize then .error .nameTooLong
  else
    match p.names.getLast? with
    | none => .ok none
    | some last => do
      let here ← fs.descend (origin cwd p) p.names.dropLast
      let there ← fs.enter here last
      pure (if last = ".." then none else some there)

/-- The files after a new directory was made. -/
def makeDir (fs : Files) (cwd p : Path) : Except FileTrouble Files := do
  match ← fs.seat cwd p with
  | none => throw .fileExists
  | some there =>
    match fs.node there with
    | .nothing =>
      if systemDir.isPrefixOf there then throw .missing
      else pure { fs with dirs := there :: fs.dirs }
    | _ => throw .fileExists

/-- The files after a directory was made if it was not there. -/
def keepDir (fs : Files) (cwd p : Path) : Except FileTrouble Files :=
  match fs.makeDir cwd p, fs.find cwd p with
  | .ok made, _ => .ok made
  | .error .missing, _ => .error .missing
  | .error _, .ok .dir => .ok fs
  | .error t, _ => .error t

/-- The files after a directory was made with what is missing above it, at most so many directories
one above the other. -/
def makeBelow (fs : Files) (cwd : Path) : Nat → Path → Except Fault Files
  | room, p =>
    match fs.keepDir cwd p with
    | .error .missing =>
      if p.names.isEmpty then forPath p (.error .missing)
      else
        match room with
        | 0 => .error .tooDeep
        | room + 1 => do
          let above ← fs.makeBelow cwd room p.parent
          forPath p (above.keepDir cwd p)
    | kept => forPath p kept

/-- The files after a directory was made with all that is missing above it. -/
def makeDirs (fs : Files) (cwd p : Path) : Except Fault Files :=
  if p.hasNull then .error .nullCharacter else fs.makeBelow cwd nestingLimit p

/-- The files after bytes were written under plain names. -/
def put (fs : Files) (there : List String) (bytes : List UInt8) : Files :=
  if there = emptyDevice then fs
  else { fs with files := (there, bytes) :: fs.files.filter fun f => f.1 != there }

/-- The files after a file was written into a directory that is there. -/
def write (fs : Files) (cwd p : Path) (bytes : List UInt8) : Except Fault Files :=
  forPath p do
    match ← fs.seat cwd p with
    | none => throw .isDirectory
    | some there =>
      match fs.node there with
      | .dir => throw .isDirectory
      | .file _ => pure (fs.put there bytes)
      | .nothing => if systemDir.isPrefixOf there then throw .missing else pure (fs.put there bytes)

/-- The lines of the text of accounts, none where there is no such text. -/
def accounts (fs : Files) : List String :=
  match fs.node accountsFile with
  | .file bytes =>
    match decodeText bytes with
    | .ok text => text.splitOn "\n"
    | .error _ => []
  | _ => []

end Files

end GatedMaze
