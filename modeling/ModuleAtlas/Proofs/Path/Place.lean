import ModuleAtlas.Files.Tree
import ModuleAtlas.Proofs.Path.Join

/-!
# Cleaned absolute paths

Cleaning an absolute path leaves the path of a place: the root and then names, without a step up.
While it is read, a step up leaves the last name and stays at the root.
-/

namespace ModuleAtlas.Files

open ModuleAtlas.Path (settle inner cleanComponents)

theorem IsName.plain {s : String} (h : IsName s) : Component.Plain (.name s) :=
  let ⟨hEmpty, hHere, hUp, hSlash⟩ := h
  .name hSlash hEmpty hHere hUp

theorem isName_of_plain {s : String} (h : Component.Plain (.name s)) : IsName s := by
  cases h with
  | name hSlash hEmpty hHere hUp => exact ⟨hEmpty, hHere, hUp, hSlash⟩

namespace Place

/-- The components on the way to a place, the last one first. -/
def stack (place : Place) : List Component := place.map .name ++ [.root]

@[simp] theorem settle_stack_name (place : Place) (s : String) :
    settle place.stack (.name s) = stack (s :: place) := rfl

@[simp] theorem settle_stack_up (place : Place) : settle place.stack .up = stack place.tail := by
  cases place <;> rfl

theorem foldl_settle_up (place : Place) (n : Nat) :
    (List.replicate n Component.up).foldl settle place.stack = stack (place.drop n) := by
  induction n generalizing place with
  | zero => rfl
  | succ n ih =>
    rw [List.replicate_succ, List.foldl_cons, settle_stack_up, ih, List.drop_tail]

theorem foldl_settle_names (place : Place) (names : List String) :
    (names.map Component.name).foldl settle place.stack = stack (names.reverse ++ place) := by
  induction names generalizing place with
  | nil => rfl
  | cons s names ih =>
    rw [List.map_cons, List.foldl_cons, settle_stack_name, ih, List.reverse_cons, List.append_assoc]
    rfl

/-- Plain components lead from any place to a place. -/
theorem exists_foldl_settle {parts : List Component} (hParts : ∀ part ∈ parts, part.Plain)
    {start : Place} (hStart : ∀ s ∈ start, IsName s) :
    ∃ place : Place, (∀ s ∈ place, IsName s) ∧ parts.foldl settle start.stack = place.stack := by
  induction parts generalizing start with
  | nil => exact ⟨start, hStart, rfl⟩
  | cons part parts ih =>
    have hRest : ∀ part ∈ parts, part.Plain := fun part hMem => hParts part (.tail _ hMem)
    have hPart := hParts part (.head _)
    cases part with
    | name s =>
      rw [List.foldl_cons, settle_stack_name]
      apply ih hRest
      simpa using ⟨isName_of_plain hPart, hStart⟩
    | up =>
      rw [List.foldl_cons, settle_stack_up]
      exact ih hRest fun s hMem => hStart s (List.mem_of_mem_tail hMem)
    | root => cases hPart
    | here => cases hPart

theorem foldl_settle_components {p : Path} (h : p.isAbsolute = true) :
    p.components.foldl settle [] = p.inner.foldl settle (stack []) := by
  rw [Path.components_eq, if_pos h]
  rfl

/-- What reading an absolute path arrives at. -/
theorem exists_stack {p : Path} (h : p.isAbsolute = true) :
    ∃ place : Place, (∀ s ∈ place, IsName s) ∧ p.components.foldl settle [] = place.stack := by
  rw [foldl_settle_components h]
  exact exists_foldl_settle (fun _ => Path.plain_of_mem_segments) nofun

theorem reverse_stack (place : Place) :
    place.stack.reverse = .root :: place.reverse.map Component.name := by
  simp [stack]

theorem clean_eq_path {p : Path} {place : Place} (h : p.components.foldl settle [] = place.stack) :
    p.clean = place.path := by
  rw [Path.clean, cleanComponents, h, reverse_stack]
  rfl

section Named

variable {place : Place} (h : ∀ s ∈ place, IsName s)

include h

theorem components_path : place.path.components = .root :: place.reverse.map Component.name := by
  apply Path.components_ofComponents
  · apply Path.Settled.absolute
    simpa using fun s hMem => (h s hMem).plain
  · exact List.cons_ne_nil _ _

theorem foldl_settle_path : place.path.components.foldl settle [] = place.stack := by
  have hDown := foldl_settle_names [] place.reverse
  rw [List.reverse_reverse, List.append_nil] at hDown
  rw [components_path h]
  exact hDown

theorem clean_path : place.path.clean = place.path := clean_eq_path (foldl_settle_path h)

end Named

theorem path_injective {place place' : Place} (h : ∀ s ∈ place, IsName s)
    (h' : ∀ s ∈ place', IsName s) (hSame : place.path = place'.path) : place = place' := by
  have hComponents := congrArg Path.components hSame
  rw [components_path h, components_path h', List.cons_inj_right] at hComponents
  have hNames : Function.Injective Component.name := fun _ _ => Component.name.inj
  exact List.reverse_injective (List.map_injective_iff.mpr hNames hComponents)

theorem isAbsolute_path (place : Place) : place.path.isAbsolute = true := by
  simp [path, Path.ofComponents, Path.isAbsolute]

theorem exists_clean_eq_path {p : Path} (h : p.isAbsolute = true) :
    ∃ place : Place, (∀ s ∈ place, IsName s) ∧ p.clean = place.path :=
  let ⟨place, hNames, hStack⟩ := exists_stack h
  ⟨place, hNames, clean_eq_path hStack⟩

end Place

end ModuleAtlas.Files

namespace ModuleAtlas.Path

open Files (Place)

variable {p : Path} (h : p.isAbsolute = true)

include h

theorem isAbsolute_clean : p.clean.isAbsolute = true := by
  obtain ⟨place, -, hClean⟩ := Place.exists_clean_eq_path h
  rw [hClean]
  exact place.isAbsolute_path

theorem text_ne_empty : p.text ≠ "" := by
  intro hEmpty
  rw [isAbsolute, hEmpty] at h
  cases h

end ModuleAtlas.Path
