import TypeReveal.Disk.Path

/-!
# Disks

What the command needs to know of a file system: which paths are files, what is in them, and where a
directory really is.  `Disk.ofFiles` is a disk that holds given files.
-/

set_option autoImplicit false
namespace TypeReveal

/-- Access to files. -/
structure Disk (m : Type → Type) where
  /-- Whether a path is that of a regular file. -/
  isFile : Path → m Bool
  /-- The content of a file, if it can be read. -/
  read : Path → m (Option (List Char))
  /-- A directory without detours; the path itself if there is no such directory. -/
  locate : Path → m Path

/-- Something that a disk may hold. -/
structure DiskEntry where
  /-- The names on the way to it. -/
  parts : List String
  /-- The content of a file; a directory has none. -/
  content? : Option (List Char)
deriving Repr

namespace DiskEntry

/-- Whether the names `parts` lead to a directory. -/
def hasDirectory (entries : List DiskEntry) (parts : List String) : Bool :=
  parts.isEmpty || entries.any fun entry =>
    if entry.parts == parts then entry.content?.isNone else parts.isPrefixOf entry.parts

/-- Where a path leads from the directory `parts`, if it does not leave the disk. -/
def walk (entries : List DiskEntry) (parts : List String) : List String → Option (List String)
  | [] => some parts
  | name :: names =>
    if name == ".." then
      if parts.isEmpty || !hasDirectory entries parts then none
      else walk entries parts.dropLast names
    else walk entries (parts ++ [name]) names

/-- The content of the file at a path. -/
def contentAt? (entries : List DiskEntry) (path : Path) : Option (List Char) := do
  guard (!path.isAbsolute && !path.isOfDirectory)
  let parts ← walk entries [] path.parts
  (← entries.find? (·.parts == parts)).content?

/-- Where the directory at a path is. -/
def directoryAt? (entries : List DiskEntry) (path : Path) : Option Path := do
  guard !path.isAbsolute
  let parts ← walk entries [] path.parts
  guard (hasDirectory entries parts)
  return Path.ofParts false parts

end DiskEntry

/-- A disk that holds given files and directories. -/
def Disk.ofEntries (entries : List DiskEntry) : Disk Id where
  isFile path := (DiskEntry.contentAt? entries path).isSome
  read path := DiskEntry.contentAt? entries path
  locate path := (DiskEntry.directoryAt? entries path).getD path

end TypeReveal
