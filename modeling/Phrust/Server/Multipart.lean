import Phrust.Runtime.HtmlEscape
import Phrust.Semantics.Names
import Phrust.Theory.Texts

/-!
# Multipart bodies

`parse_multipart_into_context`: the body is cut at the boundary, the headers of a part at CR LF, `:`, `;`
and `=`. Strings are their UTF-8 bytes; every separator is ASCII. The temporary directory is the list of
the files that have been written to it, by the number in their names.
-/

namespace Phrust

/-! ## Strings -/

/-- The characters that `str::trim` takes away. -/
def whitespaceChars : List PhpString :=
  [[9], [10], [11], [12], [13], [32], [194, 133], [194, 160], [225, 154, 128], [226, 128, 128], [226, 128, 129],
    [226, 128, 130], [226, 128, 131], [226, 128, 132], [226, 128, 133], [226, 128, 134], [226, 128, 135],
    [226, 128, 136], [226, 128, 137], [226, 128, 138], [226, 128, 168], [226, 128, 169], [226, 128, 175],
    [226, 129, 159], [227, 128, 128]]

def trimText (text : PhpString) : PhpString := Texts.trim whitespaceChars text

/-- `text.replace("\\\"", "\"")` -/
def unescapeQuotes : PhpString → PhpString
  | 92 :: 34 :: text => 34 :: unescapeQuotes text
  | byte :: text => byte :: unescapeQuotes text
  | [] => []

namespace Multipart

structure Config where
  maxUploadFiles : Nat
  maxUploadFileBytes : Nat

structure Stats where
  uploadsTotal : Nat := 0
  uploadBytesAccepted : Nat := 0
  deriving DecidableEq, Repr

inductive Error where
  | malformed
  | tooManyFiles
  | fileTooLarge
  | storage
  deriving DecidableEq, Repr

structure PartDisposition where
  name : PhpString
  filename : Option PhpString
  deriving DecidableEq

/-- `RuntimeUploadedFile`; the path is the number of the temporary file. -/
structure UploadedFile where
  fieldName : PhpString
  clientFilename : PhpString
  contentType : PhpString
  tempPath : Nat
  error : Nat
  size : Nat
  deriving DecidableEq

/-- The files of the temporary directory, `UPLOAD_COUNTER`, and whether files can be created there. -/
structure Storage where
  counter : Nat
  files : List (Nat × PhpString)
  writable : Bool
  deriving DecidableEq

/-- What of `RuntimeHttpRequestContext` is written. -/
structure Context where
  parsedPost : List (PhpString × PhpString) := []
  uploadedFiles : List UploadedFile := []
  deriving DecidableEq

def sanitizeClientFilename (value : PhpString) : PhpString :=
  ((value.filter (· ≠ 0)).reverse.takeWhile fun byte => byte ≠ 47 ∧ byte ≠ 92).reverse

def unquoteParameter (value : PhpString) : PhpString :=
  if 2 ≤ value.length ∧ value.head? = some 34 ∧ value.getLast? = some 34 then
    unescapeQuotes (value.tail.dropLast)
  else value

/-- The boundary in the content type of a request; `none` is not a multipart form. -/
def multipartBoundary : Option PhpString → Except Error (Option PhpString)
  | none => .ok none
  | some contentType =>
    match contentType.splitOn 59 with
    | [] => .ok none
    | mediaType :: parameters =>
      if lowercase (trimText mediaType) = bytesOf "multipart/form-data" then
        let boundaries := parameters.filterMap fun parameter =>
          match Texts.splitOnce 61 parameter with
          | none => none
          | some (name, value) =>
            if lowercase (trimText name) = bytesOf "boundary" then some (unquoteParameter (trimText value))
            else none
        match boundaries.head? with
        | none => .error .malformed
        | some boundary =>
          if boundary = [] ∨ 200 < boundary.length ∨ 13 ∈ boundary ∨ 10 ∈ boundary then .error .malformed
          else .ok (some boundary)
      else .ok none

abbrev Headers := List (PhpString × PhpString)

def parsePartHeader (line : PhpString) : Except Error (PhpString × PhpString) :=
  match Texts.splitOnce 58 line with
  | none => .error .malformed
  | some (name, value) => .ok (trimText name, trimText value)

def crlf : PhpString := [13, 10]

def parsePartHeaders (input : PhpString) : Except Error Headers :=
  if isUtf8 input then (Texts.splitAll crlf input.length input).mapM parsePartHeader else .error .malformed

def headerLookup (headers : Headers) (name : String) : Option PhpString :=
  (headers.find? fun header => lowercase header.1 == lowercase (bytesOf name)).map Prod.snd

/-- The name and the file name as far as parameters have set them. -/
def readParameter (parameters : Option PhpString × Option PhpString) (parameter : PhpString) :
    Option PhpString × Option PhpString :=
  match Texts.splitOnce 61 parameter with
  | none => parameters
  | some (key, value) =>
    let value := unquoteParameter (trimText value)
    let key := lowercase (trimText key)
    if key = bytesOf "name" then (some value, parameters.2)
    else if key = bytesOf "filename" then (parameters.1, some value)
    else parameters

def partDisposition (headers : Headers) : Except Error PartDisposition :=
  match headerLookup headers "content-disposition" with
  | none => .error .malformed
  | some value =>
    match value.splitOn 59 with
    | [] => .error .malformed
    | dispositionType :: parameters =>
      if lowercase (trimText dispositionType) = bytesOf "form-data" then
        match parameters.foldl readParameter (none, none) with
        | (none, _) => .error .malformed
        | (some name, filename) => .ok { name, filename }
      else .error .malformed

/-- At most a hundred names are tried. -/
def writeUploadTempFile (data : PhpString) : Nat → Storage → Option Nat × Storage
  | 0, storage => (none, storage)
  | tries + 1, storage =>
    let id := storage.counter
    let storage := { storage with counter := id + 1 }
    if id ∈ storage.files.map Prod.fst then writeUploadTempFile data tries storage
    else if storage.writable then (some id, { storage with files := storage.files ++ [(id, data)] })
    else (none, storage)

structure State where
  context : Context
  storage : Storage
  stats : Stats := {}
  fileCount : Nat := 0
  deriving DecidableEq

section
variable (config : Config) (lossy : PhpString → PhpString)

/-- `String::from_utf8_lossy` changes only what is not UTF-8. -/
def fromUtf8Lossy (data : PhpString) : PhpString := if isUtf8 data then data else lossy data

/-- Record one part. -/
def recordPart (headers : Headers) (data : PhpString) (state : State) : Except Error Unit × State :=
  match partDisposition headers with
  | .error error => (.error error, state)
  | .ok ⟨name, none⟩ =>
    let context :=
      { state.context with parsedPost := state.context.parsedPost ++ [(name, fromUtf8Lossy lossy data)] }
    (.ok (), { state with context })
  | .ok ⟨name, some filename⟩ =>
    if config.maxUploadFiles ≤ state.fileCount then (.error .tooManyFiles, state)
    else if config.maxUploadFileBytes < data.length then (.error .fileTooLarge, state)
    else
      match writeUploadTempFile data 100 state.storage with
      | (none, storage) => (.error .storage, { state with storage })
      | (some tempPath, storage) =>
        let file : UploadedFile :=
          { fieldName := name
            clientFilename := sanitizeClientFilename filename
            contentType := (headerLookup headers "content-type").getD []
            tempPath
            error := 0
            size := data.length }
        (.ok (),
          { context := { state.context with uploadedFiles := state.context.uploadedFiles ++ [file] }
            storage
            stats :=
              { uploadsTotal := state.stats.uploadsTotal + 1
                uploadBytesAccepted := min (2 ^ 64 - 1) (state.stats.uploadBytesAccepted + data.length) }
            fileCount := state.fileCount + 1 })

/-- The parts behind a boundary; every round takes bytes from the body. -/
def parseParts (marker : PhpString) : Nat → PhpString → State → Except Error Stats × State
  | 0, _, state => (.error .malformed, state)
  | fuel + 1, body, state =>
    if body.take 2 = [45, 45] then (.ok state.stats, state)
    else if body.take 2 ≠ crlf then (.error .malformed, state)
    else
      let body := body.drop 2
      match Texts.find (crlf ++ crlf) body with
      | none => (.error .malformed, state)
      | some headerEnd =>
        match parsePartHeaders (body.take headerEnd) with
        | .error error => (.error error, state)
        | .ok headers =>
          let body := body.drop (headerEnd + 4)
          match Texts.find (crlf ++ marker) body with
          | none => (.error .malformed, state)
          | some dataEnd =>
            let data := body.take dataEnd
            let body := body.drop (dataEnd + (crlf ++ marker).length)
            match recordPart config lossy headers data state with
            | (.error error, state) => (.error error, state)
            | (.ok (), state) => parseParts marker fuel body state

def parseMultipartInner (body boundary : PhpString) (state : State) : Except Error Stats × State :=
  let marker := [45, 45] ++ boundary
  if marker.isPrefixOf body then
    if state.storage.writable then
      parseParts config lossy marker (body.length + 1) (body.drop marker.length) state
    else (.error .storage, state)
  else (.error .malformed, state)

/-- After an error the files that were written are removed and their records dropped. -/
def parseMultipartIntoContext (body boundary : PhpString) (context : Context) (storage : Storage) :
    Except Error Stats × Context × Storage :=
  match parseMultipartInner config lossy body boundary { context, storage } with
  | (.ok stats, state) => (.ok stats, state.context, state.storage)
  | (.error error, state) =>
    let written := (state.context.uploadedFiles.drop context.uploadedFiles.length).map UploadedFile.tempPath
    (.error error,
      { state.context with uploadedFiles := state.context.uploadedFiles.take context.uploadedFiles.length },
      { state.storage with files := state.storage.files.filter fun file => file.1 ∉ written })

end
end Multipart
end Phrust
