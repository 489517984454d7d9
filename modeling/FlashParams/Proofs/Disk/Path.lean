import FlashParams.Disk.Path
import FlashParams.Proofs.Text.Split
import FlashParams.Proofs.Text.Utf8
import Mathlib.Data.List.Basic

/-!
# Files that differ in their extensions

A run writes several files whose paths are the same bytes with different extensions. Those bytes may be
anything: an absolute path, one that ends in a slash, no path at all, no text. Still the paths lead
through the same directories and differ in their last component only (`components_withExtension`), and a
last component with an extension is none of those that mean a directory.
-/

set_option autoImplicit false

namespace FlashParams.Path

theorem ofText_append (s t : String) : ofText (s ++ t) = ofText s ++ ofText t := by
  simp only [ofText, Text.utf8Bytes_eq_encode, String.toList_append, Text.encode_append]

theorem ofText_inj {s t : String} (h : ofText s = ofText t) : s = t := by
  have hread := congrArg Text.ofUtf8? h
  rw [ofText, ofText, Text.ofUtf8?_utf8Bytes, Text.ofUtf8?_utf8Bytes] at hread
  exact Option.some.inj hread

/-- What can stand behind the last point of a file name: something without a point, so that it can be
told where it begins, and without a slash. -/
structure IsExtension (e : String) : Prop where
  ne : ofText e ≠ []
  plain : ∀ b ∈ ofText e, b ≠ slash ∧ b ≠ dot

instance (e : String) : Decidable (IsExtension e) :=
  decidable_of_iff ((ofText e).isEmpty = false ∧ (ofText e).all (fun b => b ≠ slash ∧ b ≠ dot) = true)
    ⟨fun h => ⟨List.isEmpty_eq_false_iff.1 h.1,
        fun b hb => of_decide_eq_true (List.all_eq_true.1 h.2 b hb)⟩,
      fun h => ⟨List.isEmpty_eq_false_iff.2 h.ne,
        List.all_eq_true.2 fun b hb => decide_eq_true (h.plain b hb)⟩⟩

def withExtension (path : Path) (e : String) : Path :=
  path ++ dot :: ofText e

theorem ofText_withExtension (name e : String) :
    ofText (name ++ "." ++ e) = withExtension (ofText name) e := by
  have hdot : ofText "." = [dot] := by decide
  rw [ofText_append, ofText_append, hdot, withExtension, List.append_assoc]
  rfl

def parents (path : Path) : List Path :=
  let steps := (pieces path).dropLast.filter fun piece => piece ≠ [] ∧ piece ≠ here
  if isAbsolute path then root :: steps else steps

def leaf (path : Path) : Path :=
  (pieces path).getLast?.getD []

section

variable {path : Path} {e : String}

/-- A path with an extension comes apart in one way. Two files of a job with different extensions are
therefore two paths, whatever the base name is. -/
theorem withExtension_inj {path' : Path} {e' : String} (he : IsExtension e) (he' : IsExtension e')
    (h : withExtension path e = withExtension path' e') : path = path' ∧ e = e' := by
  have hbytes : (ofText e).reverse ++ dot :: path.reverse =
      (ofText e').reverse ++ dot :: path'.reverse := by
    simpa [withExtension] using congrArg List.reverse h
  -- from the end, the first point is the one in front of the extension
  have hfront : ∀ {x : String} (y : Path), IsExtension x →
      ((ofText x).reverse ++ dot :: y.reverse).takeWhile (· ≠ dot) = (ofText x).reverse := by
    intro x y hx
    rw [List.takeWhile_append_of_pos fun b hb => decide_eq_true (hx.plain b (List.mem_reverse.1 hb)).2,
      List.takeWhile_cons_of_neg (by decide), List.append_nil]
  have hext : (ofText e).reverse = (ofText e').reverse := by
    rw [← hfront path he, hbytes, hfront path' he']
  rw [hext] at hbytes
  have hpath := (List.cons.inj (List.append_cancel_left hbytes)).2
  exact ⟨List.reverse_injective hpath, ofText_inj (List.reverse_injective hext)⟩

theorem withExtension_ne {name : Path} (he : IsExtension e)
    (hname : name.getLast?.all (fun b => b = slash ∨ b = dot) = true) :
    withExtension path e ≠ name := by
  rintro rfl
  have hlast : (withExtension path e).getLast? = some ((ofText e).getLast he.ne) := by
    rw [withExtension, List.getLast?_append, List.getLast?_cons, List.getLast?_eq_some_getLast he.ne]
    rfl
  have hplain := he.plain _ (List.getLast_mem he.ne)
  rw [hlast] at hname
  rcases of_decide_eq_true hname with h | h
  · exact hplain.1 h
  · exact hplain.2 h

theorem pieces_withExtension (he : IsExtension e) :
    pieces (withExtension path e) = (pieces path).dropLast ++ [withExtension (leaf path) e] := by
  obtain ⟨front, last, hsplit, -, happend⟩ := Text.splitWhere_append (p := (· == slash)) path
  have hplain : ∀ b ∈ dot :: ofText e, (b == slash) = false :=
    List.forall_mem_cons.2 ⟨by decide, fun b hb => beq_eq_false_iff_ne.2 (he.plain b hb).1⟩
  have hleaf : leaf path = last := by
    rw [leaf, pieces, hsplit, List.getLast?_concat]
    rfl
  rw [hleaf, pieces, pieces, withExtension, happend _ hplain, hsplit, List.dropLast_concat]
  rfl

theorem isAbsolute_withExtension : isAbsolute (withExtension path e) = isAbsolute path := by
  cases path with
  | nil => rfl
  | cons b rest => rfl

/-- **Paths that differ in their extensions lead through the same directories.** The extension stands
behind the last slash, and a file name with one is never a dot or two. -/
theorem components_withExtension (he : IsExtension e) :
    components (withExtension path e) = parents path ++ [withExtension (leaf path) e] := by
  have hkept : withExtension (leaf path) e ≠ [] ∧ withExtension (leaf path) e ≠ here :=
    ⟨withExtension_ne he (by decide), withExtension_ne he (by decide)⟩
  have hlast : [withExtension (leaf path) e].filter (fun piece => piece ≠ [] ∧ piece ≠ here) =
      [withExtension (leaf path) e] := List.filter_cons_of_pos (decide_eq_true hkept)
  unfold components parents
  rw [pieces_withExtension he, isAbsolute_withExtension, List.filter_append, hlast]
  dsimp only
  split <;> rfl

theorem namesDirectory_withExtension (he : IsExtension e) :
    namesDirectory (withExtension path e) = false := by
  unfold namesDirectory
  rw [pieces_withExtension he, List.getLast?_concat]
  exact decide_eq_false fun h => h.elim (withExtension_ne he (by decide))
    (withExtension_ne he (by decide))

theorem join_withExtension (directory name : Path) (e : String) :
    join directory (withExtension name e) = withExtension (join directory name) e := by
  unfold join
  rw [isAbsolute_withExtension]
  split
  · rfl
  · split
    · simp only [withExtension, List.append_assoc]
    · simp only [withExtension, List.append_assoc, List.cons_append]

end

end FlashParams.Path
