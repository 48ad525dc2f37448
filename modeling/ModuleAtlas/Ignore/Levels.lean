import ModuleAtlas.Files.Disk
import ModuleAtlas.Ignore.Rule

/-!
# Which ignore files count

Each directory is a level with its own ignore files. An entry is judged by the levels of all
directories above it, the nearest first. `.ignore` files count everywhere. The ignore files of git
count only inside a repository, from the entry up to the top of the innermost one. The `.gitignore`
file of the scanned root counts in any case, last of all, and its tied patterns are seen from the
working directory.

Assumed of the walk that reads the ignore files: it goes into hidden directories, follows no links,
looks into all directories above the root, and passes over what it cannot read. Rules that a user
keeps for all repositories are left out.
-/

namespace ModuleAtlas.Ignore

open Files

structure Level where
  dir : Place
  general : List Rule
  shared : List Rule
  /-- The rules of `info/exclude` in the repository's data. -/
  excluded : List Rule
  isTop : Bool

def repositoryMarks : List Path := [⟨".git"⟩, ⟨".jj"⟩]

def gitIgnoreFile : Path := ⟨".gitignore"⟩

/-- The directory of the data that all work trees of a repository share, seen from the top of one
of them. A file in its place names the data of this work tree, which in turn names the shared one. -/
def repositoryData? (d : Disk) (dir : Place) : Option Path :=
  let mark := dir.path.join ⟨".git"⟩
  if d.isFile mark then do
    let line ← (d.linesOf mark).head?
    let own ← Text.after? "gitdir: " line
    let common ← (d.linesOf ((Path.mk own).join ⟨"commondir"⟩)).head?
    return if Text.startsWith common "." then (Path.mk own).join ⟨common⟩ else ⟨common⟩
  else some mark

namespace Level

def ofDirectory (d : Disk) (dir : Place) : Level where
  dir := dir
  general := rulesOf ((d.seenFrom dir).linesOf ⟨".ignore"⟩)
  shared := rulesOf ((d.seenFrom dir).linesOf gitIgnoreFile)
  excluded :=
    match repositoryData? d dir with
    | some data => rulesOf (d.linesOf (data.join ⟨"info/exclude"⟩))
    | none => []
  isTop := repositoryMarks.any fun mark => ((d.seenFrom dir).entry mark).isOk

def isSilent (l : Level) : Bool :=
  l.general.isEmpty && l.shared.isEmpty && l.excluded.isEmpty && ! l.isTop

def verdictOf? (l : Level) (rules : List Rule) (isDirectory : Bool) (place : Place) :
    Option Verdict :=
  (place.below? l.dir).bind fun names => verdict? rules isDirectory (Place.relative names)

end Level

structure Judge where
  /-- Levels that have a say, deeper ones first. -/
  levels : List Level
  /-- The rules of the scanned root's own file. -/
  named : List Rule
  here : String

namespace Judge

def ofDisk (d : Disk) (root : Place) : Judge where
  levels :=
    let directories := d.tree.places.filter fun place => d.tree.get? place = some .directory
    ((directories.map (Level.ofDirectory d)).filter (! ·.isSilent)).mergeSort
      fun a b => b.dir.length ≤ a.dir.length
  named := rulesOf ((d.seenFrom root).linesOf gitIgnoreFile)
  here := d.here.path.text

/-- The levels up to the top of the innermost repository; none outside of a repository. -/
def inRepository (levels : List Level) : List Level :=
  if levels.any Level.isTop then upToTop levels else []
where
  upToTop : List Level → List Level
    | [] => []
    | l :: rest => if l.isTop then [l] else l :: upToTop rest

/-- A path with the working directory, and one slash after it, taken off its front. -/
def fromHere (j : Judge) (path : String) : String :=
  match Text.after? j.here path with
  | some rest => (Text.after? "/" rest).getD rest
  | none => path

def verdict? (j : Judge) (isDirectory : Bool) (place : Place) : Option Verdict :=
  let levels := j.levels.filter fun l => l.dir.isSuffixOf place.tail
  let repository := inRepository levels
  let spoken (rules : Level → List Rule) (l : Level) := l.verdictOf? (rules l) isDirectory place
  levels.findSome? (spoken Level.general)
    <|> repository.findSome? (spoken Level.shared)
    <|> repository.findSome? (spoken Level.excluded)
    <|> Ignore.verdict? j.named isDirectory (j.fromHere place.path.text)

def ignores (j : Judge) (isDirectory : Bool) (place : Place) : Bool :=
  j.verdict? isDirectory place = some .ignored

end Judge

end ModuleAtlas.Ignore
