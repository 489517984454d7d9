import FlashParams.Disk.Tree
import FlashParams.Proofs.Disk.Path

/-!
# What is in a file

Paths are looked up by following them, so in principle any change of a tree may change what any path
leads to. Writing a file does not: it is put where no directory is, and a path goes through directories
only (`follow_put`). Hence the file just written is what its path leads to (`content?_writeText`), and
a file whose path differs in the extension is what it was (`find_writeText_of_ne`), also if the two
paths lead through directories above the tree or through none.
-/

set_option autoImplicit false

namespace FlashParams.Disk.Tree

def content? (t : Tree) (path : Path) : Option (List UInt8) :=
  match t.find path with
  | .ok (_, .file content) => some content
  | _ => none

/-! ## Changing one place -/

variable {t t' : Tree}

theorem node?_put_self {place : List Path} (h : isGiven place = false) (node : Node) :
    (t.put place node).node? place = some node := by
  rw [node?, h, put]
  exact List.lookup_cons_self

theorem lookup_filter_ne {α : Type} {k key : List Path} (h : k ≠ key) :
    ∀ entries : List (List Path × α),
      (entries.filter (·.1 ≠ key)).lookup k = entries.lookup k
  | [] => rfl
  | (k', x) :: rest => by
    have ih := lookup_filter_ne h rest
    by_cases hk : k' = key
    · rw [List.filter_cons_of_neg (by simpa using hk), ih, List.lookup_cons,
        beq_eq_false_iff_ne.2 (hk ▸ h)]
    · rw [List.filter_cons_of_pos (by simpa using hk), List.lookup_cons, List.lookup_cons, ih]

theorem node?_put_of_ne {place other : List Path} (h : other ≠ place) (node : Node) :
    (t.put place node).node? other = t.node? other := by
  unfold node? put
  split
  · rfl
  · rw [List.lookup_cons, beq_eq_false_iff_ne.2 h]
    exact lookup_filter_ne h t.entries

/-! ## Following paths -/

def descend (t : Tree) (place : List Path) (component : Path) : Except Fault (List Path) :=
  match t.node? place with
  | some .directory => step place component
  | some (.file _) => .error .notADirectory
  | none => .error .notFound

theorem descend_eq_ok {place next : List Path} {component : Path} :
    t.descend place component = .ok next ↔
      t.node? place = some .directory ∧ step place component = .ok next := by
  unfold descend
  cases t.node? place with
  | none => exact ⟨(nomatch ·), fun h => nomatch h.1⟩
  | some node =>
    cases node with
    | directory => exact ⟨fun h => ⟨rfl, h⟩, fun h => h.2⟩
    | file content => exact ⟨(nomatch ·), fun h => nomatch h.1⟩

theorem descend_of_directory {place : List Path} (h : t.node? place = some .directory)
    (component : Path) : t.descend place component = step place component := by
  rw [descend, h]

theorem follow_cons (t : Tree) (start : List Path) (component : Path) (rest : List Path) :
    t.follow start (component :: rest) =
      (t.descend start component).bind fun next => t.follow next rest := by
  rw [follow, descend]
  cases t.node? start with
  | none => rfl
  | some node =>
    cases node with
    | directory => cases step start component <;> rfl
    | file content => rfl

theorem follow_concat (t : Tree) (start front : List Path) (last : Path) :
    t.follow start (front ++ [last]) =
      (t.follow start front).bind fun place => t.descend place last := by
  induction front generalizing start with
  | nil =>
    rw [List.nil_append, follow_cons]
    cases hnext : t.descend start last with
    | error fault => exact hnext.symm
    | ok next => exact hnext.symm
  | cons component rest ih =>
    rw [List.cons_append, follow_cons, follow_cons]
    cases t.descend start component with
    | error fault => rfl
    | ok next => exact ih next

/-- A directory is not where a file is put. Putting a file where no directory is thus leaves all
directories, and with them the ways that paths take. -/
theorem node?_put_of_directory {place other : List Path} (h : t.node? place ≠ some .directory)
    (hother : t.node? other = some .directory) (node : Node) :
    (t.put place node).node? other = some .directory := by
  have hne : other ≠ place := fun e => h (e ▸ hother)
  rw [node?_put_of_ne hne, hother]

/-- **A path that leads somewhere still does when a file is put where no directory is.** On its way it
passes directories only, and none of them has been replaced. -/
theorem follow_put {place : List Path} (h : t.node? place ≠ some .directory) (node : Node)
    {components start stop : List Path} (hstop : t.follow start components = .ok stop) :
    (t.put place node).follow start components = .ok stop := by
  induction components generalizing start with
  | nil => exact hstop
  | cons component rest ih =>
    rw [follow_cons] at hstop ⊢
    cases hnext : t.descend start component with
    | error fault =>
      rw [hnext] at hstop
      cases hstop
    | ok next =>
      obtain ⟨hdirectory, hstep⟩ := descend_eq_ok.1 hnext
      rw [hnext] at hstop
      rw [descend_eq_ok.2 ⟨node?_put_of_directory h hdirectory node, hstep⟩]
      exact ih hstop

theorem locate_put {place : List Path} (h : t.node? place ≠ some .directory) (node : Node)
    {path : Path} {found : List Path} (hfound : t.locate path = .ok found) :
    (t.put place node).locate path = .ok found := by
  unfold locate at hfound ⊢
  cases hfault : pathFault? path with
  | some fault =>
    rw [hfault] at hfound
    cases hfound
  | none =>
    rw [hfault] at hfound
    exact follow_put h node hfound

/-! ## Writing -/

theorem writeText_eq_ok {path : Path} {text : String} (h : t.writeText path text = .ok t') :
    ∃ place, t.locate path = .ok place ∧ t.node? place ≠ some .directory ∧
      t' = t.put place (.file (Text.utf8Bytes text)) := by
  unfold writeText at h
  split at h
  · cases h
  · rename_i place hplace
    split at h
    · cases h
    · rename_i hnode
      cases h
      exact ⟨place, hplace, hnode, rfl⟩

theorem isGiven_of_not_directory {place : List Path} (h : t.node? place ≠ some .directory) :
    isGiven place = false := by
  cases hgiven : isGiven place with
  | false => rfl
  | true => exact absurd (by rw [node?, hgiven]; rfl) h

/-- **What is written is what the file holds**, found again by the path under which it was written. -/
theorem content?_writeText {path : Path} {text : String} (hfile : Path.namesDirectory path = false)
    (h : t.writeText path text = .ok t') : t'.content? path = some (Text.utf8Bytes text) := by
  obtain ⟨place, hplace, hnode, rfl⟩ := writeText_eq_ok h
  have hfound := locate_put hnode (.file (Text.utf8Bytes text)) hplace
  unfold content? find
  rw [hfound]
  dsimp only
  rw [node?_put_self (isGiven_of_not_directory hnode), hfile]
  rfl

section

variable {path : Path} {e e' : String} (he : Path.IsExtension e) (he' : Path.IsExtension e')

include he in
theorem step_withExtension {place parent : List Path} {name : Path}
    (h : step parent (Path.withExtension name e) = .ok place) :
    place = parent ++ [Path.withExtension name e] := by
  unfold step at h
  split at h
  · cases h
  · rw [if_neg fun hup => Path.withExtension_ne he (by decide) hup.1] at h
    exact (Except.ok.inj h).symm

include he' in
/-- A path with an extension that leads somewhere leads through a directory to it. The directory is the
same for all files of a job, and only the last step differs. -/
theorem parent_of_locate {place : List Path}
    (h : t.locate (Path.withExtension path e') = .ok place) :
    ∃ parent, t.follow [] (Path.parents path) = .ok parent ∧
      t.node? parent = some .directory ∧
      place = parent ++ [Path.withExtension (Path.leaf path) e'] := by
  unfold locate at h
  rw [Path.components_withExtension he', follow_concat] at h
  split at h
  · cases h
  · cases hparent : t.follow [] (Path.parents path) with
    | error fault =>
      rw [hparent] at h
      cases h
    | ok parent =>
      rw [hparent] at h
      obtain ⟨hdirectory, hstep⟩ := descend_eq_ok.1 h
      exact ⟨parent, rfl, hdirectory, step_withExtension he' hstep⟩

include he he' in
/-- **Writing a file leaves alone the files whose paths differ from its own in the extension.** They are
in the same directory under other names, or both paths lead nowhere. -/
theorem find_writeText_of_ne (hne : e ≠ e') {text : String}
    (h : t.writeText (Path.withExtension path e') text = .ok t') :
    t'.find (Path.withExtension path e) = t.find (Path.withExtension path e) := by
  obtain ⟨place', hplace', hnode, rfl⟩ := writeText_eq_ok h
  obtain ⟨parent, hparent, hdirectory, rfl⟩ := parent_of_locate he' hplace'
  -- both trees know the directory, so both look for the name in it
  have hlocate : ∀ u : Tree, u.follow [] (Path.parents path) = .ok parent →
      u.node? parent = some .directory →
        u.locate (Path.withExtension path e) = t.locate (Path.withExtension path e) := by
    intro u hfollow hfound
    unfold locate
    rw [Path.components_withExtension he, follow_concat, follow_concat, hfollow, hparent]
    simp only [Except.bind, descend_of_directory hfound, descend_of_directory hdirectory]
  unfold find
  rw [hlocate _ (follow_put hnode _ hparent) (node?_put_of_directory hnode hdirectory _)]
  cases hplace : t.locate (Path.withExtension path e) with
  | error fault => rfl
  | ok place =>
    obtain ⟨other, hother, -, rfl⟩ := parent_of_locate he hplace
    cases hparent.symm.trans hother
    have hnames : Path.withExtension (Path.leaf path) e ≠ Path.withExtension (Path.leaf path) e' :=
      fun heq => hne (Path.withExtension_inj he he' heq).2
    have hplaces : parent ++ [Path.withExtension (Path.leaf path) e] ≠
        parent ++ [Path.withExtension (Path.leaf path) e'] := fun heq =>
      hnames (List.cons.inj (List.append_cancel_left heq)).1
    dsimp only
    rw [node?_put_of_ne hplaces]

end

end FlashParams.Disk.Tree
