import FlashParams.Proofs.Output.StringLiteral
import Mathlib.Algebra.GroupWithZero.Nat

/-!
# Taking comments out of a text

Generated texts quote what a user wrote, in comments. Whether it stays there is decided by whoever reads
the text, and readers of both languages go from the first `*/` they meet: `Mode` says where a character
stands for them and `run` what is left when the comments are taken out. In a C file a comment leaves a
blank, and one that opens inside of a literal or behind `//` is none.

A text is put together from pieces, and a piece is talked about in one way only (`Passes`): a reader who
comes to it outside of comments leaves it outside of comments, and finds in it certain items and, besides
them, nothing but white space *if and only if* some condition holds. Pieces that pass make a text that
passes, on condition of all their conditions (`Passes.append`, `Passes.flatMap`).

The condition is that comments are `Enclosed`, line by line. It is exact because each line that follows,
and the end of the comment too, starts with a blank and a star: a reader who has left the comment finds a
star outside of it.
-/

set_option autoImplicit false

namespace FlashParams.Output

/-! ## Readers -/

/-- The languages of generated texts. A linker script has neither literals nor comments of one line, so a
quote in it is a character like others. -/
inductive Language where
  | script
  | c
  deriving DecidableEq

inductive Quote where
  | single
  | double
  deriving DecidableEq

def Quote.char : Quote → Char
  | single => '\x27'
  | double => '"'

/-- Where a character stands. -/
inductive Mode where
  | code
  /-- Behind a slash, which opens a comment if a star follows. -/
  | slash
  | comment
  /-- In a comment, behind a star, which closes it if a slash follows. -/
  | star
  /-- In a comment that ends with its line. -/
  | line
  | literal (quote : Quote)
  /-- In a literal, behind a backslash. -/
  | escape (quote : Quote)
  deriving DecidableEq

namespace Mode

def all : List Mode :=
  [code, slash, comment, star, line, literal .single, literal .double, escape .single, escape .double]

theorem mem_all (m : Mode) : m ∈ all := by
  rcases m with _ | _ | _ | _ | _ | (_ | _) | (_ | _) <;> decide

/-- What holds in every mode can be tried out. There are few modes, and a statement about one character
and all of them is settled by looking. -/
instance (p : Mode → Prop) [DecidablePred p] : Decidable (∀ m, p m) :=
  decidable_of_iff (∀ m ∈ all, p m) ⟨fun h m => h m m.mem_all, fun h m _ => h m⟩

def inComment : Mode → Bool
  | comment | star => true
  | _ => false

/-- What has been read but neither taken out nor left. A slash at the end of a text has opened nothing. -/
def pending : Mode → List Char
  | slash => ['/']
  | _ => []

end Mode

namespace Language

def gap : Language → List Char
  | script => []
  | c => [' ']

/-- A character with no slash in front of it, outside of comments and literals. In a script only the
slash has a meaning. -/
def enter (lang : Language) (x : Char) : Mode × List Char :=
  if x = '/' then (.slash, [])
  else if lang = c ∧ x = Quote.single.char then (.literal .single, [x])
  else if lang = c ∧ x = Quote.double.char then (.literal .double, [x])
  else (.code, [x])

def step (lang : Language) : Mode → Char → Mode × List Char
  | .code, x => lang.enter x
  | .slash, x =>
    if x = '*' then (.comment, lang.gap)
    else if lang = c ∧ x = '/' then (.line, ['/', '/'])
    else ((lang.enter x).1, '/' :: (lang.enter x).2)
  | .comment, x => (if x = '*' then .star else .comment, [])
  | .star, x => (if x = '/' then .code else if x = '*' then .star else .comment, [])
  | .line, x => (if x = '\n' then .code else .line, [x])
  -- a line ends every literal, closed or not
  | .literal q, x =>
    (if x = '\\' then .escape q else if x = q.char ∨ x = '\n' then .code else .literal q, [x])
  | .escape q, x => (.literal q, [x])

/-- The mode behind a text and what is left of the text. The two are computed together, as what is left
depends on the mode in which each character is met. -/
def run (lang : Language) : Mode → List Char → Mode × List Char
  | m, [] => (m, [])
  | m, x :: rest =>
    ((lang.run (lang.step m x).1 rest).1, (lang.step m x).2 ++ (lang.run (lang.step m x).1 rest).2)

def strip (lang : Language) (text : String) : List Char :=
  (lang.run .code text.toList).2 ++ (lang.run .code text.toList).1.pending

theorem run_append (lang : Language) (m : Mode) (s t : List Char) :
    lang.run m (s ++ t) = ((lang.run (lang.run m s).1 t).1,
      (lang.run m s).2 ++ (lang.run (lang.run m s).1 t).2) := by
  induction s generalizing m with
  | nil => rfl
  | cons x rest ih =>
    rw [List.cons_append, run, run, ih]
    simp only [List.append_assoc]

theorem run_append_of_eq {lang : Language} {m m' : Mode} {s out : List Char}
    (h : lang.run m s = (m', out)) (t : List Char) :
    lang.run m (s ++ t) = ((lang.run m' t).1, out ++ (lang.run m' t).2) := by
  rw [run_append, h]

end Language

open Output.Language

variable {lang : Language} {s t : List Char}

/-! ## Text outside of comments -/

/-- A text outside of comments that is left as it is. It also ends outside of comments and literals, so
that texts of this kind can be put one behind the other. -/
def Kept (lang : Language) (s : List Char) : Prop :=
  lang.run .code s = (.code, s)

instance (lang : Language) (s : List Char) : Decidable (Kept lang s) :=
  inferInstanceAs (Decidable (_ = _))

theorem Kept.append (hs : Kept lang s) (ht : Kept lang t) : Kept lang (s ++ t) := by
  rw [Kept, run_append_of_eq hs, ht]

def IsInert (x : Char) : Prop :=
  x ≠ '/' ∧ x ≠ '\x27' ∧ x ≠ '"'

instance (x : Char) : Decidable (IsInert x) :=
  inferInstanceAs (Decidable (_ ∧ _))

def IsSpace (s : List Char) : Prop :=
  ∀ x ∈ s, IsInert x ∧ x.isWhitespace = true

instance (s : List Char) : Decidable (IsSpace s) :=
  List.decidableBAll _ s

theorem kept_of_inert (h : ∀ x ∈ s, IsInert x) : Kept lang s := by
  induction s with
  | nil => rfl
  | cons x rest ih =>
    obtain ⟨⟨hslash, hsingle, hdouble⟩, hrest⟩ := List.forall_mem_cons.1 h
    have hstep : lang.step .code x = (.code, [x]) := by
      rw [step, enter, if_neg hslash, if_neg (fun h => hsingle h.2), if_neg (fun h => hdouble h.2)]
    have htail : lang.run .code rest = (.code, rest) := ih hrest
    rw [Kept, run, hstep, htail]
    rfl

theorem kept_literal {body : List Char} (hbody : CSource.Body body) (hline : '\n' ∉ body) :
    Kept .c ('"' :: (body ++ ['"'])) := by
  have hinside : Language.c.run (.literal .double) (body ++ ['"']) = (.code, body ++ ['"']) := by
    induction hbody with
    | nil => rfl
    | @plain x rest hquote hbackslash _ ih =>
      have hx : x ≠ '\n' := fun e => hline (e ▸ List.mem_cons_self)
      have hstep : Language.c.step (.literal .double) x = (.literal .double, [x]) := by
        rw [step, if_neg hbackslash, if_neg]
        rintro (h | h)
        · exact hquote h
        · exact hx h
      rw [List.cons_append, run, hstep, ih fun h => hline (List.mem_cons_of_mem _ h)]
      rfl
    | @escape x rest _ ih =>
      have hrest : '\n' ∉ rest := fun h => hline (List.mem_cons_of_mem _ (List.mem_cons_of_mem _ h))
      have hopen : Language.c.step (.literal .double) '\\' = (.escape .double, ['\\']) := rfl
      have hstep : Language.c.step (.escape .double) x = (.literal .double, [x]) := rfl
      rw [List.cons_append, List.cons_append, run, hopen, run, hstep, ih hrest]
      rfl
  have hquote : Language.c.step .code '"' = (.literal .double, ['"']) := by decide
  rw [Kept, run, hquote, hinside]
  rfl

/-! ## Where comments begin -/

theorem enter_pending (x : Char) :
    (Language.c.enter x).1.inComment = false ∧
      (Language.c.enter x).2 ++ (Language.c.enter x).1.pending = [x] := by
  unfold enter
  split
  · rename_i h
    rw [h]
    exact ⟨rfl, rfl⟩
  split
  · exact ⟨rfl, rfl⟩
  split
  · exact ⟨rfl, rfl⟩
  · exact ⟨rfl, rfl⟩

theorem step_pending {m : Mode} {x : Char} (hm : m.inComment = false)
    (hopen : m = .slash → x ≠ '*') :
    (Language.c.step m x).1.inComment = false ∧
      (Language.c.step m x).2 ++ (Language.c.step m x).1.pending = m.pending ++ [x] := by
  cases m with
  | code => exact enter_pending x
  | slash =>
    obtain ⟨hmode, hleft⟩ := enter_pending x
    rw [step, if_neg (hopen rfl)]
    split
    · rename_i h
      rw [h.2]
      exact ⟨rfl, rfl⟩
    · exact ⟨hmode, congrArg ('/' :: ·) hleft⟩
  | line =>
    rw [step]
    dsimp only
    split <;> exact ⟨rfl, rfl⟩
  | literal q =>
    rw [step]
    dsimp only
    split
    · exact ⟨rfl, rfl⟩
    · split <;> exact ⟨rfl, rfl⟩
  | escape q => exact ⟨rfl, rfl⟩
  | comment | star => cases hm

/-- Up to the first comment a text is left as it is; of the comment there is a blank. What stands in
front of the comment is thus a proper beginning of the text, and this is how a line that opens one gives
itself away. -/
theorem run_code_cases (s : List Char) :
    ((Language.c.run .code s).1.inComment = false ∧
        (Language.c.run .code s).2 ++ (Language.c.run .code s).1.pending = s) ∨
      ∃ front back more, s = front ++ '/' :: '*' :: back ∧
        (Language.c.run .code s).2 = front ++ ' ' :: more := by
  induction s using List.reverseRecOn with
  | nil => exact .inl ⟨rfl, rfl⟩
  | append_singleton s x ih =>
    rw [run_append]
    generalize hm : (Language.c.run .code s).1 = m at ih
    generalize hleft : (Language.c.run .code s).2 = out at ih
    dsimp only [run]
    rcases ih with ⟨hcode, hs⟩ | ⟨front, back, more, rfl, rfl⟩
    · by_cases hopen : m = .slash ∧ x = '*'
      · obtain ⟨rfl, rfl⟩ := hopen
        refine .inr ⟨out, [], [], ?_, rfl⟩
        rw [← hs, List.append_assoc]
        rfl
      · obtain ⟨hmode, hpending⟩ := step_pending hcode fun h hx => hopen ⟨h, hx⟩
        refine .inl ⟨hmode, ?_⟩
        rw [List.append_nil, List.append_assoc, hpending, ← List.append_assoc, hs]
    · exact .inr ⟨front, back ++ [x], more ++ (Language.c.step m x).2, by simp, by simp⟩

/-! ## Text inside of comments -/

/-- The number of characters that are not white space. White space may be left in any amount where a
comment was, so it is the rest that is counted. -/
def ink (s : List Char) : Nat :=
  s.countP fun x => !x.isWhitespace

@[simp] theorem ink_append (s t : List Char) : ink (s ++ t) = ink s + ink t :=
  List.countP_append

theorem ink_eq_zero_iff : ink s = 0 ↔ ∀ x ∈ s, x.isWhitespace = true := by
  simp [ink, List.countP_eq_zero]

/-- Read inside of a comment, a text ends inside of a comment and leaves nothing but white space. -/
def Enclosed (lang : Language) (s : List Char) : Prop :=
  (lang.run .comment s).1.inComment = true ∧ ink (lang.run .comment s).2 = 0

instance (lang : Language) (s : List Char) : Decidable (Enclosed lang s) :=
  inferInstanceAs (Decidable (_ ∧ _))

theorem run_inComment {m : Mode} (hm : m.inComment = true) {x : Char} (hx : x ≠ '/')
    (rest : List Char) : lang.run m (x :: rest) = lang.run .comment (x :: rest) := by
  cases m with
  | comment => rfl
  | star => simp only [run, step, if_neg hx]
  | code | slash | line | literal _ | escape _ => cases hm

theorem Enclosed.append (hs : Enclosed lang s) {x : Char} (hx : x ≠ '/')
    (ht : Enclosed lang (x :: t)) : Enclosed lang (s ++ x :: t) := by
  rw [Enclosed, run_append, run_inComment hs.1 hx, ink_append, hs.2]
  exact ⟨ht.1, (Nat.zero_add _).trans ht.2⟩

/-- **A text without `*/` does not get out of a comment**, and leaves nothing. The induction is on the
text for both modes of a comment, since the star and the slash may be met one at a time. -/
theorem enclosed_of_not_infix (h : ¬ ['*', '/'] <:+: s) : Enclosed lang s := by
  have hrun : ∀ m : Mode, m.inComment = true → (m = .star → s.head? ≠ some '/') →
      (lang.run m s).1.inComment = true ∧ (lang.run m s).2 = [] := by
    induction s with
    | nil => exact fun m hm _ => ⟨hm, rfl⟩
    | cons x rest ih =>
      intro m hm hstar
      have hrest : ¬ ['*', '/'] <:+: rest := fun hin => h (hin.trans (List.suffix_cons x rest).isInfix)
      have hslash : x = '*' → rest.head? ≠ some '/' := by
        rintro rfl hhead
        obtain ⟨tail, rfl⟩ := List.head?_eq_some_iff.1 hhead
        exact h ⟨[], tail, rfl⟩
      have hstep : lang.step m x = (if x = '*' then .star else .comment, []) := by
        cases m with
        | comment => rfl
        | star =>
          have hx : x ≠ '/' := by
            rintro rfl
            exact hstar rfl rfl
          rw [step, if_neg hx]
        | code | slash | line | literal _ | escape _ => cases hm
      rw [run, hstep]
      refine ih hrest _ ?_ ?_
      · dsimp only
        split <;> rfl
      · dsimp only
        split
        · rename_i hx
          exact fun _ => hslash hx
        · exact nofun
  obtain ⟨hin, hout⟩ := hrun .comment rfl nofun
  exact ⟨hin, by rw [hout]; rfl⟩

/-! ## What a reader finds -/

/-- A text has items in this order and, besides them, `others` characters that are not white space. With
none of these the items are all there is to find. -/
inductive Shows : List Char → List String → Nat → Prop
  | rest (s : List Char) : Shows s [] (ink s)
  | item (front : List Char) {item : String} {rest : List Char} {items : List String} {others : Nat} :
      Shows rest items others →
        Shows (front ++ item.toList ++ rest) (item :: items) (ink front + others)

namespace Shows

variable {items more : List String} {n k : Nat}

theorem ink_eq (h : Shows s items n) : ink s = (items.map fun item => ink item.toList).sum + n := by
  induction h with
  | rest s => exact (Nat.zero_add _).symm
  | item front _ ih =>
    rw [ink_append, ink_append, ih, List.map_cons, List.sum_cons]
    omega

/-- How much there is besides the items depends neither on where they are found nor on their order. -/
theorem others_eq (h : Shows s items n) (h' : Shows s more k) (hperm : items.Perm more) : n = k := by
  have hsum := (hperm.map fun item => ink item.toList).sum_nat
  have hn := h.ink_eq
  have hk := h'.ink_eq
  omega

theorem prepend (front : List Char) (h : Shows s items n) :
    Shows (front ++ s) items (ink front + n) := by
  cases h with
  | rest s =>
    rw [← ink_append]
    exact .rest (front ++ s)
  | item inner h =>
    rw [← List.append_assoc, ← List.append_assoc, ← Nat.add_assoc, ← ink_append]
    exact .item (front ++ inner) h

theorem append (hs : Shows s items n) (ht : Shows t more k) :
    Shows (s ++ t) (items ++ more) (n + k) := by
  induction hs with
  | rest s => exact ht.prepend s
  | item front _ ih =>
    rw [List.append_assoc, Nat.add_assoc, List.cons_append]
    exact .item front ih

theorem exists_of_cons {item : String} (h : Shows s (item :: items) 0) :
    ∃ front rest, ink front = 0 ∧ s = front ++ (item.toList ++ rest) := by
  generalize hnone : 0 = n at h
  cases h with
  | item front _ => exact ⟨front, _, by omega, List.append_assoc _ _ _⟩

end Shows

/-- Read outside of comments, a text ends outside of comments and shows these items, and nothing else if
and only if `clean` holds. The condition is carried along as a proposition, so that both directions of
the final equivalence come out of one induction. -/
def Passes (lang : Language) (s : List Char) (items : List String) (clean : Prop) : Prop :=
  ∃ out others, lang.run .code s = (.code, out) ∧ Shows out items others ∧ (others = 0 ↔ clean)

namespace Passes

variable {items more : List String} {clean clean' : Prop}

theorem congr (h : Passes lang s items clean) (hiff : clean ↔ clean') : Passes lang s items clean' := by
  obtain ⟨out, others, hrun, hshows, hothers⟩ := h
  exact ⟨out, others, hrun, hshows, hothers.trans hiff⟩

theorem append (hs : Passes lang s items clean) (ht : Passes lang t more clean') :
    Passes lang (s ++ t) (items ++ more) (clean ∧ clean') := by
  obtain ⟨out, n, hrun, hshows, hn⟩ := hs
  obtain ⟨out', k, hrun', hshows', hk⟩ := ht
  refine ⟨out ++ out', n + k, ?_, hshows.append hshows', ?_⟩
  · rw [run_append_of_eq hrun, hrun']
  · rw [Nat.add_eq_zero_iff, hn, hk]

theorem flatMap {α : Type} {pieces : List α} {text : α → List Char} {shown : α → List String}
    {good : α → Prop} (h : ∀ p ∈ pieces, Passes lang (text p) (shown p) (good p)) :
    Passes lang (pieces.flatMap text) (pieces.flatMap shown) (∀ p ∈ pieces, good p) := by
  induction pieces with
  | nil => exact ⟨[], 0, rfl, .rest [], by simp⟩
  | cons p rest ih =>
    obtain ⟨hp, hrest⟩ := List.forall_mem_cons.1 h
    exact (hp.append (ih hrest)).congr List.forall_mem_cons.symm

theorem of_kept {item : String} (h : Kept lang item.toList) :
    Passes lang item.toList [item] True := by
  refine ⟨item.toList, 0, h, ?_, iff_of_true rfl trivial⟩
  simpa [ink] using @Shows.item [] item [] [] _ (.rest [])

theorem of_blank (h : IsSpace s) : Passes lang s [] True :=
  ⟨s, ink s, kept_of_inert fun x hx => (h x hx).1, .rest s,
    iff_of_true (ink_eq_zero_iff.2 fun x hx => (h x hx).2) trivial⟩

theorem exists_shows_strip {text : String} (h : Passes lang text.toList items clean) :
    ∃ others, Shows (lang.strip text) items others ∧ (others = 0 ↔ clean) := by
  obtain ⟨out, others, hrun, hshows, hothers⟩ := h
  have hstrip : lang.strip text = out := by
    rw [strip, hrun]
    exact List.append_nil out
  exact ⟨others, hstrip ▸ hshows, hothers⟩

theorem shows_strip {text : String} (h : Passes lang text.toList items clean) (hclean : clean) :
    Shows (lang.strip text) items 0 := by
  obtain ⟨others, hshows, hothers⟩ := h.exists_shows_strip
  exact hothers.2 hclean ▸ hshows

/-- If there is nothing besides the items, in whatever order they come, the text is clean. The count of
other characters does not depend on how the items are found, so it has to be zero for the order of the
file as well. -/
theorem clean_of_shows {text : String} (h : Passes lang text.toList items clean)
    (hperm : items.Perm more) (hmore : Shows (lang.strip text) more 0) : clean := by
  obtain ⟨others, hshows, hothers⟩ := h.exists_shows_strip
  exact hothers.1 (hshows.others_eq hmore hperm)

end Passes

/-! ## Comments -/

/-- What is written behind a line of a comment. It ends outside of comments. A reader who comes to it
inside of a comment finds nothing in it if and only if `clean` holds, all others find something. -/
structure Closes (lang : Language) (s : List Char) (clean : Prop) : Prop where
  ends : ∀ m, (lang.run m s).1 = .code
  inside : ∀ m : Mode, m.inComment = true → (ink (lang.run m s).2 = 0 ↔ clean)
  outside : ∀ m : Mode, m.inComment = false → 0 < ink (lang.run m s).2

namespace Closes

variable {clean : Prop}

theorem congr {clean' : Prop} (h : Closes lang s clean) (hiff : clean ↔ clean') :
    Closes lang s clean' :=
  ⟨h.ends, fun m hm => (h.inside m hm).trans hiff, h.outside⟩

theorem closing (lang : Language) : Closes lang [' ', '*', '/', '\n'] True := by
  have hends : ∀ m, (lang.run m [' ', '*', '/', '\n']).1 = .code := by
    cases lang <;> decide
  have hinside : ∀ m : Mode, m.inComment = true → ink (lang.run m [' ', '*', '/', '\n']).2 = 0 := by
    cases lang <;> decide
  have houtside : ∀ m : Mode, m.inComment = false →
      0 < ink (lang.run m [' ', '*', '/', '\n']).2 := by
    cases lang <;> decide
  exact ⟨hends, fun m hm => iff_of_true (hinside m hm) trivial, houtside⟩

theorem newline (h : Closes lang s clean) : Closes lang ('\n' :: s) clean := by
  have hinside : ∀ m : Mode, m.inComment = true → lang.step m '\n' = (.comment, []) := by
    cases lang <;> decide
  have houtside : ∀ m : Mode, m.inComment = false → (lang.step m '\n').1.inComment = false := by
    cases lang <;> decide
  refine ⟨fun m => h.ends _, fun m hm => ?_, fun m hm => ?_⟩
  · rw [run, hinside m hm]
    exact h.inside .comment rfl
  · rw [run, ink_append]
    exact Nat.add_pos_right _ (h.outside _ (houtside m hm))

/-- A reader who comes to a line inside of the comment finds nothing if and only if the line is enclosed.
If it is not, the reader is outside when the rest comes, and the end of the comment is left. -/
theorem append (h : Closes lang s clean) (line : List Char) :
    (lang.run .comment (line ++ s)).1 = .code ∧
      (ink (lang.run .comment (line ++ s)).2 = 0 ↔ Enclosed lang line ∧ clean) := by
  rw [run_append]
  refine ⟨h.ends _, ?_⟩
  rw [ink_append, Nat.add_eq_zero_iff, Enclosed]
  cases hmode : (lang.run .comment line).1.inComment with
  | true =>
    rw [h.inside _ hmode]
    simp
  | false =>
    have := h.outside _ hmode
    constructor
    · omega
    · simp

theorem cons (h : Closes lang s clean) (line : List Char) :
    Closes lang ([' ', '*', ' '] ++ (line ++ '\n' :: s)) (Enclosed lang line ∧ clean) := by
  have hinside : ∀ m : Mode, m.inComment = true → lang.run m [' ', '*', ' '] = (.comment, []) := by
    cases lang <;> decide
  have houtside : ∀ m : Mode, m.inComment = false → 0 < ink (lang.run m [' ', '*', ' ']).2 := by
    cases lang <;> decide
  refine ⟨fun m => ?_, fun m hm => ?_, fun m hm => ?_⟩
  · rw [run_append, run_append]
    exact h.newline.ends _
  · rw [run_append_of_eq (hinside m hm)]
    exact (h.newline.append line).2
  · rw [run_append, ink_append]
    exact Nat.add_pos_left (houtside m hm) _

theorem lines (h : Closes lang s clean) (lines : List (List Char)) :
    Closes lang (lines.flatMap (fun line => [' ', '*', ' '] ++ line ++ ['\n']) ++ s)
      ((∀ line ∈ lines, Enclosed lang line) ∧ clean) := by
  induction lines with
  | nil => exact h.congr (by simp)
  | cons line rest ih =>
    rw [List.flatMap_cons, List.forall_mem_cons, and_assoc]
    simpa only [List.append_assoc, List.cons_append, List.nil_append] using ih.cons line

end Closes

namespace Passes

variable {clean : Prop}

theorem of_run {out : List Char} (h : lang.run .comment s = (.code, out)) (hclean : ink out = 0 ↔ clean) :
    Passes lang (['/', '*'] ++ s) [] clean := by
  have hopen : lang.run .code ['/', '*'] = (.comment, lang.gap) := by
    cases lang <;> rfl
  have hgap : ink lang.gap = 0 := by
    cases lang <;> rfl
  refine ⟨lang.gap ++ out, ink (lang.gap ++ out), ?_, .rest _, ?_⟩
  · rw [run_append_of_eq hopen, h]
  · rw [ink_append, hgap, Nat.zero_add]
    exact hclean

theorem comment (first : List Char) (h : Closes lang s clean) :
    Passes lang (['/', '*'] ++ (first ++ s)) [] (Enclosed lang first ∧ clean) := by
  obtain ⟨hends, hclean⟩ := h.append first
  exact of_run (Prod.ext hends rfl) hclean

theorem block (lang : Language) (first : String) (lines : List String) :
    Passes lang ("/*" ++ first ++ "\n" ++ String.join (lines.map fun line => " * " ++ line ++ "\n")
        ++ " */\n").toList []
      (Enclosed lang first.toList ∧ ∀ line ∈ lines, Enclosed lang line.toList) := by
  have hlines := (Closes.closing lang).lines (lines.map String.toList)
  simpa [String.toList_join, List.flatMap_map] using Passes.comment first.toList hlines.newline

theorem remark (h : Enclosed lang s) : Passes lang (['/', '*'] ++ (s ++ [' ', '*', '/'])) [] True := by
  have hclose : ∀ m : Mode, m.inComment = true → lang.run m [' ', '*', '/'] = (.code, []) := by
    cases lang <;> decide
  refine of_run ?_ (iff_of_true h.2 trivial)
  rw [run_append, hclose _ h.1, List.append_nil]

end Passes

end FlashParams.Output
