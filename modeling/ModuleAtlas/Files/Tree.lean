import ModuleAtlas.Path.Basic

/-!
# File trees

A file tree is what a file system holds at one moment: regular files, directories and symbolic
links, each at a place. Every entry lies in a directory of the tree; this is part of the type, so
no operation can lose it. The statements about `put?` and `remove` say what each place holds
afterwards, and nothing else needs to look at the list of entries.
-/

namespace ModuleAtlas.Files

/-- The names on the way from an entry up to the root, its own name first. The root is `[]`. -/
abbrev Place := List String

namespace Place

def path (place : Place) : Path := .ofComponents (.root :: place.reverse.map .name)

def relative (names : Place) : String := "/".intercalate names.reverse

/-- The names of a place below a directory, if it lies there. -/
def below? (place dir : Place) : Option Place :=
  if dir.isSuffixOf place then some (place.take (place.length - dir.length)) else none

end Place

/-- Names that an entry can have: a single component, and neither `.` nor `..`. -/
def IsName (s : String) : Prop := s ≠ "" ∧ s ≠ "." ∧ s ≠ ".." ∧ '/' ∉ s.toList

instance (s : String) : Decidable (IsName s) := inferInstanceAs (Decidable (_ ∧ _ ∧ _ ∧ _))

inductive Content where
  | text (s : String)
  /-- Bytes that are no text in UTF-8. -/
  | raw (bytes : List UInt8)
deriving DecidableEq

namespace Content

def ofBytes (bytes : List UInt8) : Content :=
  match String.fromUTF8? ⟨bytes.toArray⟩ with
  | some s => text s
  | none => raw bytes

/-- The pieces before line feeds, and the last piece unless it is empty. -/
def splitLines {α : Type} [BEq α] (feed : α) (xs : List α) : List (List α) :=
  let pieces := xs.splitOn feed
  if pieces.getLast? matches some [] then pieces.dropLast else pieces

def dropReturn (line : String) : String := (Text.before? "\r" line).getD line

/-- The lines that can be read one after the other: those before the first that is no text. -/
def lines : Content → List String
  | text s => (splitLines '\n' s.toList).map fun line => dropReturn (String.ofList line)
  | raw bytes => go (splitLines 10 bytes)
where
  go : List (List UInt8) → List String
    | [] => []
    | line :: rest =>
      match String.fromUTF8? ⟨line.toArray⟩ with
      | some s => dropReturn s :: go rest
      | none => []

end Content

inductive Entry where
  | file (content : Content)
  | directory
  | link (target : Path)
deriving DecidableEq

/-- Whether the entries of a list have names and lie in directories of the list or in the root. -/
def Rooted (entries : List (Place × Entry)) : Prop :=
  ∀ name dir e, entries.lookup (name :: dir) = some e →
    IsName name ∧ (dir = [] ∨ entries.lookup dir = some .directory)

structure FileTree where
  entries : List (Place × Entry)
  rooted : Rooted entries

def restrict (keep : Place → Bool) (entries : List (Place × Entry)) : List (Place × Entry) :=
  entries.filter fun e => keep e.1

theorem lookup_restrict (keep : Place → Bool) (entries : List (Place × Entry)) (place : Place) :
    (restrict keep entries).lookup place = if keep place then entries.lookup place else none := by
  induction entries with
  | nil => simp [restrict]
  | cons entry rest ih =>
    obtain ⟨other, e⟩ := entry
    rw [restrict] at ih ⊢
    by_cases same : place = other
    · subst same
      by_cases kept : keep place <;> simp [kept, ih]
    · have differs : (place == other) = false := by simpa using same
      by_cases kept : keep other <;> simp [List.lookup_cons, kept, differs, ih]

namespace FileTree

def empty : FileTree := ⟨[], by simp [Rooted]⟩

def get? (t : FileTree) : Place → Option Entry
  | [] => some .directory
  | name :: dir => t.entries.lookup (name :: dir)

def places (t : FileTree) : List Place := [] :: t.entries.map Prod.fst

/-- Whether an entry can be put under a name of a directory. A directory stays what it is. -/
def Accepts (t : FileTree) (dir : Place) (name : String) : Prop :=
  IsName name ∧ t.get? dir = some .directory ∧ t.get? (name :: dir) ≠ some .directory

instance (t : FileTree) (dir : Place) (name : String) : Decidable (t.Accepts dir name) :=
  inferInstanceAs (Decidable (_ ∧ _ ∧ _))

def putEntry (place : Place) (e : Entry) (entries : List (Place × Entry)) :
    List (Place × Entry) :=
  (place, e) :: restrict (· != place) entries

theorem lookup_putEntry (place : Place) (e : Entry) (entries : List (Place × Entry))
    (other : Place) :
    (putEntry place e entries).lookup other
      = if other = place then some e else entries.lookup other := by
  by_cases same : other = place
  · simp [putEntry, same]
  · have differs : (other == place) = false := by simpa using same
    simp [putEntry, List.lookup_cons, lookup_restrict, bne, differs, same]

theorem get?_directory_iff {t : FileTree} {dir : Place} :
    t.get? dir = some .directory ↔ dir = [] ∨ t.entries.lookup dir = some .directory := by
  cases dir <;> simp [get?]

theorem rooted_putEntry {t : FileTree} {dir : Place} {name : String} (h : t.Accepts dir name)
    (e : Entry) : Rooted (putEntry (name :: dir) e t.entries) := by
  obtain ⟨named, inDirectory, free⟩ := h
  have stays : ∀ d : Place, t.get? d = some .directory →
      d = [] ∨ (putEntry (name :: dir) e t.entries).lookup d = some .directory := by
    intro d isDirectory
    refine (get?_directory_iff.mp isDirectory).imp id fun found => ?_
    rw [lookup_putEntry, if_neg, found]
    rintro rfl
    exact free isDirectory
  intro otherName otherDir other found
  rw [lookup_putEntry] at found
  split at found
  · next same =>
    obtain ⟨rfl, rfl⟩ := List.cons_eq_cons.mp same
    exact ⟨named, stays _ inDirectory⟩
  · obtain ⟨hasName, parent⟩ := t.rooted _ _ _ found
    exact ⟨hasName, stays _ (get?_directory_iff.mpr parent)⟩

/-- The tree with an entry put under a name of a directory, in place of a file or link there. -/
def put? (t : FileTree) (dir : Place) (name : String) (e : Entry) : Option FileTree :=
  if h : t.Accepts dir name then some ⟨putEntry (name :: dir) e t.entries, rooted_putEntry h e⟩
  else none

/-- After putting an entry, its place holds it and every other place holds what it held. -/
theorem get?_put? {t after : FileTree} {dir : Place} {name : String} {e : Entry}
    (h : t.put? dir name e = some after) (place : Place) :
    after.get? place = if place = name :: dir then some e else t.get? place := by
  rw [put?] at h
  split at h
  · obtain rfl := Option.some.inj h
    cases place <;> simp [get?, lookup_putEntry]
  · simp at h

theorem rooted_outside {entries : List (Place × Entry)} (h : Rooted entries) (place : Place) :
    Rooted (restrict (fun p => ¬ place <:+ p) entries) := by
  intro name dir e found
  rw [lookup_restrict] at found
  split at found
  · next outside =>
    obtain ⟨hasName, parent⟩ := h _ _ _ found
    refine ⟨hasName, parent.imp id fun parent => ?_⟩
    have outside : ¬ place <:+ name :: dir := by simpa using outside
    have outsideToo : ¬ place <:+ dir := fun inside =>
      outside (inside.trans (List.suffix_cons name dir))
    rw [lookup_restrict, if_pos (by simpa using outsideToo), parent]
  · simp at found

/-- The tree without a place and everything below it; the root itself stays. -/
def remove (t : FileTree) (place : Place) : FileTree :=
  ⟨restrict (fun p => ¬ place <:+ p) t.entries, rooted_outside t.rooted place⟩

/-- The places that a removal keeps are those that do not lie at or below the removed one. -/
theorem get?_remove {t : FileTree} {place other : Place} (h : other ≠ []) :
    (t.remove place).get? other = if place <:+ other then none else t.get? other := by
  cases other with
  | nil => exact absurd rfl h
  | cons name dir =>
    rw [get?, remove, lookup_restrict]
    by_cases inside : place <:+ name :: dir <;> simp only [inside, get?, decide_not] <;> rfl

end FileTree

end ModuleAtlas.Files
