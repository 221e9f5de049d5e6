/-
Canonical absolute paths: their components and their text.

A canonical path has no empty component, no `.` and no `..`; its text puts a
slash before every component, and the root directory is a single slash.

* `Contains` — a path lies at or below another one, component by component;
* `contains_iff_text` — the same, read off the texts: the one is the other, or
  goes on with a slash;
* `prefix_of_contains` — then the one text begins with the other.  The converse
  fails.
-/
import Mathlib.Tactic
import UnixPrograms.Bytes

namespace Paths

open Bytes

def slash : Byte := 0x2f

def dot : Byte := 0x2e

/-- A name that a canonical path can have as a component. -/
def IsName (c : List Byte) : Prop :=
  c ≠ [] ∧ slash ∉ c ∧ 0 ∉ c ∧ c ≠ [dot] ∧ c ≠ [dot, dot]

instance : DecidablePred IsName := fun c =>
  inferInstanceAs (Decidable (c ≠ [] ∧ slash ∉ c ∧ 0 ∉ c ∧ c ≠ [dot] ∧ c ≠ [dot, dot]))

structure CanonPath where
  components : List (List Byte)
  isName : ∀ c ∈ components, IsName c

/-- Every component after a slash. -/
def slashed (cs : List (List Byte)) : List Byte := cs.flatMap (slash :: ·)

namespace CanonPath

/-- The text of a path. -/
def render (p : CanonPath) : List Byte :=
  match p.components with
  | [] => [slash]
  | cs => slashed cs

/-- The second path is the first one or lies below it. -/
def Contains (root p : CanonPath) : Prop := root.components <+: p.components

instance (root p : CanonPath) : Decidable (root.Contains p) :=
  inferInstanceAs (Decidable (root.components <+: p.components))

end CanonPath

/-! ### Components in a text -/

/-- A name ends at the next slash. -/
theorem append_slash_prefix_iff {c d : List Byte} (hc : slash ∉ c) (hd : slash ∉ d)
    {u v : List Byte} :
    c ++ slash :: u <+: d ++ slash :: v ↔ c = d ∧ u <+: v := by
  induction c generalizing d with
  | nil =>
    rcases d with _ | ⟨b, d⟩
    · simp [List.cons_prefix_cons]
    · have hb : slash ≠ b := fun h => hd (h ▸ List.mem_cons_self)
      simp [List.cons_prefix_cons, hb]
  | cons a c ih =>
    have ha : a ≠ slash := fun h => hc (h ▸ List.mem_cons_self)
    have hc' : slash ∉ c := fun h => hc (List.mem_cons_of_mem a h)
    rcases d with _ | ⟨b, d⟩
    · simp [List.cons_prefix_cons, ha]
    · have hd' : slash ∉ d := fun h => hd (List.mem_cons_of_mem b h)
      rw [List.cons_append, List.cons_append, List.cons_prefix_cons, ih hc' hd',
        List.cons.injEq, and_assoc]

theorem exists_slash_cons (cs : List (List Byte)) :
    ∃ u, slashed cs ++ [slash] = slash :: u := by
  rcases cs with _ | ⟨c, cs⟩
  · exact ⟨[], rfl⟩
  · exact ⟨c ++ (slashed cs ++ [slash]), by simp [slashed]⟩

/-- With a slash behind them, texts are prefixes as their components are. -/
theorem slashed_prefix_iff {r p : List (List Byte)} (hr : ∀ c ∈ r, IsName c)
    (hp : ∀ c ∈ p, IsName c) :
    slashed r ++ [slash] <+: slashed p ++ [slash] ↔ r <+: p := by
  induction r generalizing p with
  | nil =>
    rcases p with _ | ⟨d, p⟩ <;> simp [slashed, List.cons_prefix_cons]
  | cons c r ih =>
    obtain ⟨hcne, hcslash, -⟩ := hr c List.mem_cons_self
    have hr' : ∀ c ∈ r, IsName c := fun c hc => hr c (List.mem_cons_of_mem _ hc)
    obtain ⟨u, hu⟩ := exists_slash_cons r
    have hcons : slashed (c :: r) ++ [slash] = slash :: (c ++ slash :: u) := by
      rw [← hu]
      simp [slashed]
    rcases p with _ | ⟨d, p⟩
    · rw [hcons]
      rcases c with _ | ⟨b, c⟩
      · exact absurd rfl hcne
      · simp [slashed, List.cons_prefix_cons]
    · obtain ⟨-, hdslash, -⟩ := hp d List.mem_cons_self
      have hp' : ∀ c ∈ p, IsName c := fun c hc => hp c (List.mem_cons_of_mem _ hc)
      obtain ⟨v, hv⟩ := exists_slash_cons p
      have hcons' : slashed (d :: p) ++ [slash] = slash :: (d ++ slash :: v) := by
        rw [← hv]
        simp [slashed]
      have hrest : u <+: v ↔ r <+: p := by
        rw [← ih hr' hp', hu, hv]
        simp [List.cons_prefix_cons]
      rw [hcons, hcons', List.cons_prefix_cons, append_slash_prefix_iff hcslash hdslash, hrest,
        List.cons_prefix_cons]
      simp

namespace CanonPath

variable {root p : CanonPath}

theorem render_of_ne (h : p.components ≠ []) : p.render = slashed p.components := by
  rw [render]
  split
  · rename_i hnil
    exact absurd hnil h
  · rfl

theorem render_of_eq (h : p.components = []) : p.render = [slash] := by
  rw [render]
  simp [h]

/-- The first component comes right after the first slash. -/
theorem render_eq_cons (h : p.components ≠ []) :
    ∃ b u, p.render = slash :: b :: u := by
  rw [render_of_ne h]
  rcases hcs : p.components with _ | ⟨c, cs⟩
  · exact absurd hcs h
  · have hc := p.isName c (by rw [hcs]; exact List.mem_cons_self)
    rcases c with _ | ⟨b, c⟩
    · exact absurd rfl hc.1
    · exact ⟨b, c ++ slashed cs, by simp [slashed]⟩

/-- **Containment in the texts**: nothing, or a slash, follows the root. -/
theorem contains_iff_text (hroot : root.components ≠ []) :
    root.Contains p ↔ p.render = root.render ∨ root.render ++ [slash] <+: p.render := by
  rw [Contains, ← slashed_prefix_iff root.isName p.isName, ← render_of_ne hroot]
  by_cases hp : p.components = []
  · obtain ⟨b, u, hr⟩ := render_eq_cons hroot
    rw [render_of_eq hp, hp, hr]
    simp [slashed, List.cons_prefix_cons]
  · rw [← render_of_ne hp, List.prefix_concat_iff, List.append_cancel_right_eq, eq_comm]

/-- A path's text starts with that of every path above it. -/
theorem prefix_of_contains (h : root.Contains p) : root.render <+: p.render := by
  by_cases hroot : root.components = []
  · rw [render_of_eq hroot]
    by_cases hp : p.components = []
    · rw [render_of_eq hp]
    · obtain ⟨b, u, hr⟩ := render_eq_cons hp
      rw [hr]
      exact List.prefix_append [slash] _
  · rcases (contains_iff_text hroot).mp h with heq | hpre
    · rw [heq]
    · exact (List.prefix_append _ _).trans hpre

end CanonPath

end Paths
