/-
# Slash paths

Paths are byte strings whose elements stand between slashes. `clean` is the
shortest path that names the same place without looking at any file; the other
operations cut and join paths the same way.

Key definitions: `Path.clean`, `Path.join`, `Path.dir`, `Path.base`,
`Path.extension`, `Path.isValid`.
-/
import Terrace.Text.Utf8

namespace Terrace.Path

/-- The byte between the elements of a path. -/
def slash : UInt8 := '/'.toUInt8

/-- The elements of a path. -/
def elements (path : Bytes) : List Bytes := Bytes.splitOn slash path

/-- Walks over path elements with the ones kept so far, last one first: empty and
`.` elements are dropped, and `..` takes back the element before it. At the root
`..` stays there; a relative path keeps the leading ones. -/
def cleanElements (rooted : Bool) : List Bytes → List Bytes → List Bytes
  | kept, [] => kept.reverse
  | kept, element :: rest =>
    if element = [] || element = "." then cleanElements rooted kept rest
    else if element = ".." then
      match kept with
      | [] => cleanElements rooted (if rooted then [] else [element]) rest
      | last :: earlier =>
        if last = ".." then cleanElements rooted (element :: kept) rest
        else cleanElements rooted earlier rest
    else cleanElements rooted (element :: kept) rest

/-- Whether a path starts at the root. -/
def isRooted (path : Bytes) : Bool := path.head? == some slash

/-- Elements with slashes between them. -/
def ofElements (elements : List Bytes) : Bytes := List.intercalate [slash] elements

/-- The shortest path equivalent to `path`; an empty result is written `.`. -/
def clean (path : Bytes) : Bytes :=
  let body := ofElements (cleanElements (isRooted path) [] (elements path))
  if isRooted path then slash :: body else if body.isEmpty then "." else body

/-- Two paths one after the other, cleaned. -/
def join (first second : Bytes) : Bytes :=
  if first.isEmpty && second.isEmpty then []
  else if first.isEmpty then clean second
  else clean (first ++ slash :: second)

/-- All but the last element, cleaned. -/
def dir (path : Bytes) : Bytes := clean (Bytes.dropRightWhile (· != slash) path)

/-- The part after the last slash. -/
def afterSlash (path : Bytes) : Bytes := (path.reverse.takeWhile (· != slash)).reverse

/-- The last element; trailing slashes do not count. -/
def base (path : Bytes) : Bytes :=
  if path.isEmpty then "."
  else
    let trimmed := Bytes.dropRightWhile (· == slash) path
    if trimmed.isEmpty then [slash] else afterSlash trimmed

/-- The part of the last element from its last dot on, if it has one. -/
def extension (path : Bytes) : Bytes :=
  let name := afterSlash path
  if name.contains '.'.toUInt8 then
    '.'.toUInt8 :: (name.reverse.takeWhile (· != '.'.toUInt8)).reverse
  else []

/-- Whether a path names a place inside a file tree: well-formed UTF-8, and either
`.` or elements that are not empty, `.` or `..`. -/
def isValid (path : Bytes) : Bool :=
  Text.Utf8.isValid path &&
    (path == "." || (elements path).all fun e => !e.isEmpty && e != "." && e != "..")

end Terrace.Path
