import Nestor.Core.Error
import Nestor.Lib.Text

/-!
# Object names as paths

`path_of` of `origin.rs` in `nestor-store`, over the `Path` of the crate `object_store`. What the
crate thinks of a single segment is a parameter.
-/

namespace Nestor.Store

open Lib

/-- What `PathPart::parse` accepts, and what `PathPart::from` makes of a segment. -/
class PathPart where
  legal : Bytes → Bool
  escape : Bytes → Bytes

/-- Escaping keeps a segment one segment, and changes what is not legal. -/
class LawfulPathPart [PathPart] : Prop where
  escape_no_slash (s : Bytes) : 47 ∉ s → 47 ∉ PathPart.escape s
  escape_ne (s : Bytes) : s ≠ [] → PathPart.legal s = false → PathPart.escape s ≠ s

def segments (path : Bytes) : List Bytes := path.splitOn 47

/-- A slash at either end makes for an empty segment. -/
theorem nil_mem_segments_cons (path : Bytes) : [] ∈ segments (47 :: path) := by
  rw [segments, List.splitOn, List.splitOnP_cons_eq_if_modifyHead, if_pos (by decide)]
  exact List.mem_cons_self

theorem nil_mem_segments_append (path : Bytes) : [] ∈ segments (path ++ [47]) := by
  rw [segments, List.splitOn, List.splitOnP_append_cons _ _ (by decide), List.splitOnP_nil]
  exact List.mem_append_right _ List.mem_cons_self

variable [PathPart]

def isSegment (s : Bytes) : Bool := s ≠ [] && PathPart.legal s

/-- `Path::parse`. -/
def parsePath (path : Bytes) : Option Bytes :=
  let stripped := (path.dropPrefix? [47]).getD path
  if stripped = [] then some []
  else
    let stripped := (stripped.dropSuffix? [47]).getD stripped
    if (segments stripped).all isSegment then some stripped else none

/-- `Path::from`. -/
def pathFrom (path : Bytes) : Bytes :=
  [47].intercalate (((segments path).filter (· ≠ [])).map PathPart.escape)

def pathOf (object : Bytes) : Bytes := (parsePath object).getD (pathFrom object)

/-! ## When the name is kept -/

theorem parsePath_eq_some {path p : Bytes} (h : parsePath path = some p) :
    p = [] ∨ (segments p).all isSegment := by
  unfold parsePath at h
  dsimp only at h
  split at h
  · cases h
    exact .inl rfl
  · split at h
    · rename_i hall
      cases h
      exact .inr hall
    · cases h

theorem parsePath_of_segments {path : Bytes} (hne : path ≠ []) (h : (segments path).all isSegment) :
    parsePath path = some path := by
  have hnil : [] ∉ segments path := fun hmem => by
    have := List.all_eq_true.mp h _ hmem
    simp [isSegment] at this
  have hfront : path.dropPrefix? [47] = none := by
    cases hp : path.dropPrefix? [47] with
    | none => rfl
    | some rest => exact absurd (dropPrefix?_eq_some.mp hp ▸ nil_mem_segments_cons rest) hnil
  have hback : path.dropSuffix? [47] = none := by
    cases hp : path.dropSuffix? [47] with
    | none => rfl
    | some rest => exact absurd (dropSuffix?_eq_some.mp hp ▸ nil_mem_segments_append rest) hnil
  simp [parsePath, hfront, hback, hne, h]

theorem segments_of_pathFrom [LawfulPathPart] {path : Bytes} (hne : path ≠ []) (h : pathFrom path = path) :
    (segments path).all isSegment := by
  have hsplit : segments path = ((segments path).filter (· ≠ [])).map PathPart.escape := by
    have hjoin : segments (pathFrom path) = ((segments path).filter (· ≠ [])).map PathPart.escape := by
      refine List.splitOn_intercalate _ ?_ ?_
      · intro s hs
        obtain ⟨s', hs', rfl⟩ := List.mem_map.mp hs
        exact LawfulPathPart.escape_no_slash _ (not_mem_of_mem_splitOn (List.mem_of_mem_filter hs'))
      · intro hnil
        rw [pathFrom, hnil] at h
        exact hne h.symm
    rwa [h] at hjoin
  have hlen : ((segments path).filter (· ≠ [])).length = (segments path).length := by
    conv_rhs => rw [hsplit, List.length_map]
  have hfilter : (segments path).filter (· ≠ []) = segments path :=
    List.filter_sublist.eq_of_length hlen
  rw [hfilter] at hsplit
  refine List.all_eq_true.mpr fun s hs => ?_
  have hs' : s ≠ [] := by simpa using (List.filter_eq_self.mp hfilter) s hs
  have hfixed : PathPart.escape s = s := by
    obtain ⟨i, hi, rfl⟩ := List.mem_iff_getElem.mp hs
    have hget := congrArg (fun l => l[i]?) hsplit
    simp only [List.getElem?_map, List.getElem?_eq_getElem hi, Option.map_some, Option.some.injEq] at hget
    exact hget.symm
  have hlegal : PathPart.legal s = true := by
    by_contra hl
    exact LawfulPathPart.escape_ne s hs' (Bool.eq_false_iff.mpr hl) hfixed
  simp [isSegment, hs', hlegal]

/-- A name is kept if it consists of legal segments, none of them empty. -/
theorem pathOf_eq_self [LawfulPathPart] {object : Bytes} (hne : object ≠ []) :
    pathOf object = object ↔ (segments object).all isSegment := by
  constructor
  · intro h
    unfold pathOf at h
    cases hp : parsePath object with
    | none =>
        rw [hp] at h
        exact segments_of_pathFrom hne h
    | some p =>
        rw [hp] at h
        obtain rfl : p = object := h
        exact (parsePath_eq_some hp).resolve_left hne
  · intro h
    rw [pathOf, parsePath_of_segments hne h]
    rfl

end Nestor.Store
