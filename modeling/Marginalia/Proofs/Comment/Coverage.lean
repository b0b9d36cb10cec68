import Marginalia.Proofs.Comment.Shape
import Marginalia.Proofs.Text.Scan

/-!
# Comments and literals cover a text

The comments of a text lie one behind the other, each with the shape of its form.  Together with the
literals that are passed over they cover every place where a comment that ends could start, so none is
missed; and none starts inside a literal.
-/

namespace Marginalia

open Text (Hit hits)

/-- The literals that reading the comments of a text passes over. -/
def CommentStyle.passedLiterals (style : CommentStyle) (text : List Char) :
    List (Hit CommentToken) :=
  (hits style.read text).filter fun hit => hit.token = .literal

/-- A place lies inside one of some comments or literals. -/
inductive IsCovered (comments : List Comment) (literals : List (Hit CommentToken)) (place : Nat) :
    Prop where
  | comment {comment : Comment} (member : comment ∈ comments) (behind : comment.start ≤ place)
      (before : place < comment.stop)
  | literal {literal : Hit CommentToken} (member : literal ∈ literals)
      (behind : literal.start ≤ place) (before : place < literal.stop)

/-- What comments and passed literals of a text have to be: comments of their shapes, one behind the
    other; literals outside of them, where no comment could start; and both together wherever a
    comment or a literal could start. -/
structure CommentStyle.IsReading (style : CommentStyle) (text : List Char)
    (comments : List Comment) (literals : List (Hit CommentToken)) : Prop where
  inside : ∀ comment ∈ comments, comment.start < comment.stop ∧ comment.stop ≤ text.length
  apart : comments.Pairwise fun front back => front.start < back.start ∧ front.stop ≤ back.start
  shape : ∀ comment ∈ comments, comment.HasShape style text
  /-- A block that is empty is no documentation. -/
  emptyBlock : ∀ comment ∈ comments, "/**/".toList <+: text.drop comment.start →
    comment.kind = .block ∧ comment.stop = comment.start + 4
  literal : ∀ literal ∈ literals, literal.stop ≤ text.length ∧
    (∃ form ∈ style.literals, form.Spells ((text.drop literal.start).take literal.length)) ∧
    ¬ style.CanStart (text.drop literal.start)
  outside : ∀ comment ∈ comments, ∀ literal ∈ literals,
    comment.stop ≤ literal.start ∨ literal.stop ≤ comment.start
  complete : ∀ place, style.CanStart (text.drop place) → IsCovered comments literals place
  /-- Literals are taken from the left as well. -/
  leftmost : ∀ place form piece, form ∈ style.literals → form.Spells piece →
    piece <+: text.drop place → IsCovered comments literals place
  hidden : ∀ comment ∈ comments, ∀ literal ∈ literals,
    ¬ (literal.start ≤ comment.start ∧ comment.start < literal.stop)

variable {style : CommentStyle} {text : List Char}

/-! ## Comments and the tokens that they are -/

namespace Comment

variable {hit : Hit CommentToken} {comment : Comment}

theorem exists_ofHit? (style : CommentStyle) (notLiteral : hit.token ≠ .literal) :
    ∃ comment, ofHit? style hit = some comment := by
  rw [ofHit?]
  split
  case h_5 literal => exact absurd literal notLiteral
  all_goals exact ⟨_, rfl⟩

/-- A comment covers the place of its token and has the form that the token tells. -/
theorem of_ofHit? (found : ofHit? style hit = some comment) :
    hit.token ≠ .literal ∧ comment.start = hit.start ∧ comment.stop = hit.stop ∧
      (style.Tells hit.length (text.drop hit.start) hit.token → comment.HasShape style text) := by
  have span : hit.stop - hit.start = hit.length := Nat.add_sub_cancel_left ..
  rw [ofHit?] at found
  cases token : hit.token with
  | literal =>
    rw [token] at found
    cases found
  | doc body =>
    rw [token] at found
    cases found
    refine ⟨CommentToken.noConfusion, rfl, rfl, fun tells => .inl ?_⟩
    rwa [ofRows, span]
  | block body =>
    rw [token] at found
    cases found
    refine ⟨CommentToken.noConfusion, rfl, rfl, fun tells => ?_⟩
    show style.block.Enclose (hit.stop - hit.start) _
    rwa [span]
  | docLines rows =>
    rw [token] at found
    cases found
    refine ⟨CommentToken.noConfusion, rfl, rfl, fun tells => .inr ?_⟩
    rwa [ofRows, span]
  | line body =>
    rw [token] at found
    cases found
    refine ⟨CommentToken.noConfusion, rfl, rfl, fun tells => ?_⟩
    show IsLineComment _ (hit.stop - hit.start) _
    rwa [span]

end Comment

namespace CommentStyle

/-- What is known of each token that reading the comments of a text meets. -/
theorem tells_of_mem_hits (clear : style.IsClear) {hit : Hit CommentToken}
    (member : hit ∈ hits style.read text) :
    style.Tells hit.length (text.drop hit.start) hit.token ∧ 0 < hit.length ∧
      hit.stop ≤ text.length := by
  obtain ⟨inside, read⟩ := Text.read_of_mem_hits member
  have tells := tells_of_read clear read
  have bound := tells.length_le
  rw [List.length_drop] at bound
  refine ⟨tells, tells.length_pos clear, ?_⟩
  rw [Hit.stop]
  omega

/-- Wherever something is read, a comment or a passed literal covers the place. -/
theorem isCovered_of_isSome_read (clear : style.IsClear) {place : Nat}
    (found : (style.read (text.drop place)).isSome = true) :
    IsCovered (style.comments text) (style.passedLiterals text) place := by
  have inside : place < text.length := by
    refine Nat.lt_of_not_le fun outside => ?_
    obtain ⟨⟨length, token⟩, read⟩ := Option.isSome_iff_exists.mp found
    have tells := tells_of_read clear read
    have bound := tells.length_le
    have positive := tells.length_pos clear
    rw [List.drop_of_length_le outside, List.length_nil] at bound
    omega
  have positive {text : List Char} {answer : Nat × CommentToken}
      (read : style.read text = some answer) : 0 < answer.1 :=
    (tells_of_read clear read).length_pos clear
  obtain ⟨hit, member, behind, before⟩ :=
    @Text.covered_of_read _ _ style.read positive 0 0 place text inside (Nat.zero_le place) found
  rw [Nat.zero_add] at behind before
  by_cases isLiteral : hit.token = .literal
  · exact .literal (List.mem_filter.mpr ⟨member, decide_eq_true isLiteral⟩) behind before
  · obtain ⟨comment, isComment⟩ := Comment.exists_ofHit? style isLiteral
    obtain ⟨_, start, stop, _⟩ := @Comment.of_ofHit? style text _ _ isComment
    exact .comment (List.mem_filterMap.mpr ⟨hit, member, isComment⟩) (start ▸ behind)
      (stop ▸ before)

theorem pairwise_comments (style : CommentStyle) (text : List Char) :
    (style.comments text).Pairwise fun front back =>
      front.start < back.start ∧ front.stop ≤ back.start := by
  refine (Text.pairwise_hitsFrom style.read 0 0 text).filterMap _ ?_
  intro frontHit backHit ordered front isFront back isBack
  obtain ⟨_, frontStart, frontStop, _⟩ := @Comment.of_ofHit? style text _ _ isFront
  obtain ⟨_, backStart, _, _⟩ := @Comment.of_ofHit? style text _ _ isBack
  rwa [frontStart, frontStop, backStart]

/-- No comment and no passed literal share a place. -/
theorem comment_apart_literal {comment : Comment} {literal : Hit CommentToken}
    (isComment : comment ∈ style.comments text) (isLiteral : literal ∈ style.passedLiterals text) :
    comment.stop ≤ literal.start ∨ literal.stop ≤ comment.start := by
  obtain ⟨hit, member, found⟩ := List.mem_filterMap.mp isComment
  obtain ⟨notLiteral, start, stop, _⟩ := @Comment.of_ofHit? style text _ _ found
  obtain ⟨literalMember, token⟩ := List.mem_filter.mp isLiteral
  have different : hit ≠ literal := by
    rintro rfl
    exact notLiteral (of_decide_eq_true token)
  rw [start, stop]
  exact Text.apart_of_mem_hits member literalMember different

end CommentStyle

/-! ## Languages -/

/-- An empty block is read as a block, or as nothing in a language that has no such blocks. -/
theorem Language.read_emptyBlock (language : Language) (rest : List Char) :
    language.style.read ("/**/".toList ++ rest) = some (4, .block []) ∨
      language.style.read ("/**/".toList ++ rest) = none := by
  cases language with
  | python => exact .inr rfl
  | _ => exact .inl rfl

/-- In every language the comments of a text have their shapes and lie one behind the other, and
    together with the literals that are passed over they cover every place where a comment that ends
    could start. -/
theorem Language.isReading_commentsIn (language : Language) (text : List Char) :
    language.style.IsReading text (commentsIn language.name text)
      (language.style.passedLiterals text) := by
  have clear := language.isClear_style
  have named : commentsIn language.name text = language.style.comments text := by
    rw [commentsIn, Language.ofName?_name]
  have inside : ∀ comment ∈ language.style.comments text,
      comment.start < comment.stop ∧ comment.stop ≤ text.length := by
    intro comment member
    obtain ⟨hit, hitMember, found⟩ := List.mem_filterMap.mp member
    obtain ⟨_, start, stop, _⟩ := @Comment.of_ofHit? language.style text _ _ found
    obtain ⟨_, positive, bound⟩ := CommentStyle.tells_of_mem_hits clear hitMember
    rw [start, stop]
    exact ⟨Nat.lt_add_of_pos_right positive, bound⟩
  rw [named]
  constructor
  case inside => exact inside
  case apart => exact CommentStyle.pairwise_comments language.style text
  case shape =>
    intro comment member
    obtain ⟨hit, hitMember, found⟩ := List.mem_filterMap.mp member
    obtain ⟨_, _, _, shape⟩ := Comment.of_ofHit? found
    exact shape (CommentStyle.tells_of_mem_hits clear hitMember).1
  case emptyBlock =>
    rintro comment member ⟨rest, whole⟩
    obtain ⟨hit, hitMember, found⟩ := List.mem_filterMap.mp member
    obtain ⟨_, start, stop, _⟩ := @Comment.of_ofHit? language.style text _ _ found
    obtain ⟨_, read⟩ := Text.read_of_mem_hits hitMember
    rw [← start, ← whole] at read
    rcases language.read_emptyBlock rest with isBlock | nothing
    · rw [isBlock, Option.some.injEq, Prod.mk.injEq] at read
      obtain ⟨length, token⟩ := read
      rw [stop, start, Hit.stop, ← length]
      rw [Comment.ofHit?, ← token] at found
      cases found
      exact ⟨rfl, rfl⟩
    · rw [nothing] at read
      cases read
  case literal =>
    intro literal member
    obtain ⟨hitMember, token⟩ := List.mem_filter.mp member
    obtain ⟨_, read⟩ := Text.read_of_mem_hits hitMember
    obtain ⟨tells, _, bound⟩ := CommentStyle.tells_of_mem_hits clear hitMember
    rw [of_decide_eq_true token] at tells read
    refine ⟨bound, tells.2, fun can => ?_⟩
    obtain ⟨length, other, readOther, notLiteral⟩ := CommentStyle.exists_read_of_canStart can
    rw [read] at readOther
    cases readOther
    exact notLiteral rfl
  case outside => exact fun _ isComment _ isLiteral =>
    CommentStyle.comment_apart_literal isComment isLiteral
  case complete =>
    intro place can
    obtain ⟨_, _, read, _⟩ := CommentStyle.exists_read_of_canStart can
    exact CommentStyle.isCovered_of_isSome_read clear (Option.isSome_of_eq_some read)
  case leftmost =>
    intro place form piece member spells front
    exact CommentStyle.isCovered_of_isSome_read clear
      (CommentStyle.isSome_read_of_spells member spells front)
  case hidden =>
    intro comment isComment literal isLiteral
    have nonempty := (inside comment isComment).1
    have apart := CommentStyle.comment_apart_literal isComment isLiteral
    omega

end Marginalia
