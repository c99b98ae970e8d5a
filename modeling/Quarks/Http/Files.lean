import Quarks.Json.Value
import Quarks.Search.NearMatch

/-!
# The routes for files

`/upload` and `/upload/guid` store the files of a multipart body in the directory `uploads`,
and `/uploads/<string>` serves them from there.
-/

namespace Quarks

/-- `CrowMiddleware::uri_decode`. A percent sign without two digits behind it is dropped. -/
def uriDecode : Bytes → Bytes
  | 37 :: a :: b :: s =>
    if isHexDigit a && isHexDigit b then UInt8.ofNat (16 * fromHex a + fromHex b) :: uriDecode s
    else uriDecode (a :: b :: s)
  | 37 :: s => uriDecode s
  | 43 :: s => 32 :: uriDecode s
  | c :: s => c :: uriDecode s
  | [] => []

/-- `s.find(pat)`, `none` for `npos`. -/
def find (pat : Bytes) : Bytes → Option ℕ
  | [] => if pat = [] then some 0 else none
  | c :: s => if pat.isPrefixOf (c :: s) then some 0 else (find pat s).map (· + 1)

/-- `s.find(pat, pos)`. -/
def findFrom (pat s : Bytes) (pos : ℕ) : Option ℕ := (find pat (s.drop pos)).map (pos + ·)

/-- `s.find_last_of(chars)`. -/
def findLastOf (chars : Bytes) : Bytes → Option ℕ
  | [] => none
  | c :: s => ((findLastOf chars s).map (· + 1)).or (if chars.contains c then some 0 else none)

/-- `pos + n`. Behind `npos` the sum wraps around. -/
def behind (pos : Option ℕ) (n : ℕ) : ℕ := pos.elim (n - 1) (· + n)

/-- `s.substr(start, stop - start)`. The length is too large if `stop` is `npos` or stands
before `start`, and then the rest of the text is taken. -/
def substrTo (s : Bytes) (start : ℕ) (stop : Option ℕ) : Bytes :=
  stop.elim (s.drop start) fun e =>
    if start ≤ e then (s.drop start).take (e - start) else s.drop start

/-- The parts of a body: the texts before each boundary, from the last one on. `skip` bytes
still belong to a boundary. -/
def partsFrom (boundary : Bytes) : (skip : ℕ) → (part body : Bytes) → List Bytes
  | _, _, [] => []
  | skip + 1, part, _ :: s => partsFrom boundary skip part s
  | 0, part, c :: s =>
    if boundary.isPrefixOf (c :: s) then part :: partsFrom boundary (boundary.length - 1) [] s
    else partsFrom boundary 0 (part ++ [c]) s

/-- The file in a part: its name is the text in quotes behind `filename=`, its content goes
from the first empty line behind the name up to the last line break or hyphen. No `substr` of
the handler throws, as each starts behind a text that has been found, or at the front. -/
def partFile (part : Bytes) : Option (Bytes × Bytes) :=
  (find (ascii "filename=") part).map fun pos =>
    let start := behind (findFrom [34] part pos) 1
    let stop := findFrom [34] part start
    let content := behind (stop.bind (findFrom [13, 10, 13, 10] part)) 4
    (substrTo part start stop, substrTo part content (findLastOf [13, 10, 45] part))

/-- What the routes for files ask of the machine. A path is read up to its first zero. -/
structure Host where
  /-- The directory `uploads` exists, or it can be created. -/
  hasUploads : Bool
  /-- The file can be opened for writing. -/
  canWrite : Bytes → Bool
  /-- The file, if it can be opened for reading. -/
  read? : Bytes → Option Bytes
  /-- The identifier and the time that a file with a unique name is given, by its number. -/
  uuidString : ℕ → Bytes
  now : ℕ → ℤ

/-- What a request for files does: the paths that it opens, the files that it stores, and
the response. -/
structure Served where
  opened : List Bytes
  stored : List (Bytes × Bytes)
  code : ℕ
  body : Bytes
  contentType : Option Bytes

/-- A response without files. -/
def Served.only (code : ℕ) (body : Bytes) : Served := ⟨[], [], code, body, none⟩

/-- `uploadDir`. -/
def uploadDir : Bytes := ascii "uploads"

/-- `uploadDir + "/" + filename`. -/
def uploadPath (filename : Bytes) : Bytes := uploadDir ++ ascii "/" ++ filename

/-- The name under which a file is stored. -/
def storedFilename (host : Host) (unique : Bool) (i : ℕ) (filename : Bytes) : Bytes :=
  if unique then (host.uuidString i).take 8 ++ toString (host.now i) ++ ascii "_" ++ filename
  else filename

/-- The loop over the parts. A file that cannot be opened ends it with an exception. -/
def saveParts (host : Host) (unique : Bool) : ℕ → List Bytes → Bytes → Served
  | _, [], fileNames => .only 200 (fileNames.dropLast ++ ascii "]")
  | i, part :: parts, fileNames =>
    match partFile part with
    | none => saveParts host unique i parts fileNames
    | some (name, content) =>
      let filename := storedFilename host unique i name
      let path := cstr (uploadPath filename)
      if host.canWrite path then
        let rest := saveParts host unique (i + 1) parts
          (fileNames ++ ascii "'" ++ filename ++ ascii "',")
        { rest with
          opened := path :: rest.opened
          stored := (path, content) :: rest.stored }
      else
        { Served.only 500 (ascii "Server error: Failed to open file for writing") with
          opened := [path] }

/-- The parts of an upload, or the response that refuses it. -/
def uploadParts (host : Host) (contentType body : Bytes) : Except Served (List Bytes) :=
  if host.hasUploads then
    match find (ascii "multipart/form-data") contentType, find (ascii "boundary=") contentType with
    | none, _ => .error (.only 400 (ascii "Invalid content type"))
    | some _, none => .error (.only 400 (ascii "Boundary not found"))
    | some _, some pos =>
      .ok (partsFrom (ascii "--" ++ contentType.drop (pos + 9)) 0 [] body)
  else .error (.only 500 (ascii "Failed to create directory"))

/-- `fileupload`. -/
def fileupload (host : Host) (unique : Bool) (contentType body : Bytes) : Served :=
  match uploadParts host contentType body with
  | .error refused => refused
  | .ok parts => saveParts host unique 0 parts (ascii "[")

/-- `mimeTypes`. -/
def mimeTypes : List (Bytes × Bytes) :=
  [(".html", "text/html"), (".css", "text/css"), (".js", "application/javascript"),
    (".json", "application/json"), (".png", "image/png"), (".jpg", "image/jpeg"),
    (".jpeg", "image/jpeg"), (".gif", "image/gif"), (".txt", "text/plain"),
    (".pdf", "application/pdf"), (".mp3", "audio/mpeg"), (".wav", "audio/wav"),
    (".ogg", "audio/ogg"), (".flac", "audio/flac"), (".aac", "audio/aac"),
    (".m4a", "audio/mp4"), (".mp4", "video/mp4"), (".avi", "video/x-msvideo"),
    (".mov", "video/quicktime"), (".mkv", "video/x-matroska"), (".webm", "video/webm"),
    (".flv", "video/x-flv"), (".mpg", "video/mpeg")].map fun e => (ascii e.1, ascii e.2)

/-- `getMimeType`. -/
def getMimeType (extension : Bytes) : Bytes :=
  (mimeTypes.lookup (toLower extension)).getD (ascii "application/octet-stream")

/-- `getFile`. -/
def getFile (host : Host) (filePath : Bytes) : Served :=
  match host.read? (cstr filePath) with
  | none => { Served.only 404 (ascii "File not found") with opened := [cstr filePath] }
  | some contents =>
    let extension := (findLastOf [46] filePath).elim [] filePath.drop
    ⟨[cstr filePath], [], 200, contents, some (getMimeType extension)⟩

/-- The requests for files: the path behind `/uploads/`, as it stands in the request, or the
header `Content-Type` and the body of an upload. -/
inductive FileRequest
  | uploads (path : Bytes)
  | upload (contentType body : Bytes)
  | uploadGuid (contentType body : Bytes)

/-- The handlers of the three routes. -/
def serveFile (host : Host) : FileRequest → Served
  | .uploads path => getFile host (ascii "uploads/" ++ uriDecode (cstr path))
  | .upload contentType body => fileupload host false contentType body
  | .uploadGuid contentType body => fileupload host true contentType body

end Quarks
