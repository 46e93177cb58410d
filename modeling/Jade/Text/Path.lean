/-!
# File names

The last component of a path and its extension. A dot that opens the last component starts no
extension.
-/

namespace Jade.Path

def fileNameChars (cs : List Char) : List Char := (cs.reverse.takeWhile (· ≠ '/')).reverse

def fileName (path : String) : String := String.ofList (fileNameChars path.toList)

/-- The last dot of a file name and what follows it; nothing if there is no dot, or only dots stand
before it. -/
def extensionChars (cs : List Char) : List Char :=
  let name := fileNameChars cs
  let tail := name.reverse.takeWhile (· ≠ '.')
  let stem := (name.reverse.drop (tail.length + 1)).reverse
  if tail.length < name.length && stem.any (· ≠ '.') then '.' :: tail.reverse else []

def extension (path : String) : String := String.ofList (extensionChars path.toList)

end Jade.Path
