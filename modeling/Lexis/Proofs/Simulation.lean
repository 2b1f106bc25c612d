import Lexis.Proofs.Outcomes
import Lexis.Proofs.Tokens

/-!
# Lexers side by side

Two lexers that stay related from pull to pull, and hand out related items, read related tokens or fail
with related errors. Main statement: `Lexer.tokens_agree`.
-/

namespace Lexis

/-- `Tokenwise R segments tokens others` tells that there are as many `others` as `tokens`, and that each
of them is related to its partner, which was read in the segment of the same number. -/
inductive Tokenwise (R : Segment → Token → Token → Prop) :
    List Segment → List Token → List Token → Prop
  | nil {segments : List Segment} : Tokenwise R segments [] []
  | cons {segment : Segment} {segments : List Segment} {token other : Token}
      {tokens others : List Token} :
      segment.item = .ok token → R segment token other → Tokenwise R segments tokens others →
      Tokenwise R (segment :: segments) (token :: tokens) (other :: others)

theorem Tokenwise.forall₂ {R : Token → Token → Prop} {segments : List Segment}
    {tokens others : List Token} (h : Tokenwise (fun _ => R) segments tokens others) :
    List.Forall₂ R tokens others := by
  induction h with
  | nil => exact .nil
  | cons _ hR _ ih => exact .cons hR ih

/-- Readings that agree become items that agree once they are located. -/
theorem Reading.agree_locate {R : Token → Token → Prop} {S : LexError → LexError → Prop}
    {reading other : Reading Lexeme} {place there : Place}
    (h : Agree
      (fun a b => R ⟨a, place.position reading.length⟩ ⟨b, there.position other.length⟩)
      (fun f g => S ⟨f, place.position reading.length⟩ ⟨g, there.position other.length⟩)
      reading.result other.result) :
    Agree R S (reading.locate place) (other.locate there) := by
  obtain ⟨result, length⟩ := reading
  obtain ⟨otherResult, otherLength⟩ := other
  change Agree _ _ result otherResult at h
  cases h with
  | ok h => exact .ok h
  | error h => exact .error h

namespace Lexer

/-- Lexers that are related, where pulls keep them related and hand out items that agree, read the same
number of tokens, related pair by pair, or fail with related errors. -/
theorem tokens_agree {Related : Lexer → Lexer → Prop} {R : Segment → Token → Token → Prop}
    {S : LexError → LexError → Prop}
    (hkind : ∀ segment token other, R segment token other → token.kind = other.kind)
    (hstep : ∀ lexer other, Related lexer other →
      Agree (R lexer.segment) S lexer.nextToken.1 other.nextToken.1 ∧
      Related lexer.nextToken.2 other.nextToken.2)
    {lexer other : Lexer} (hdone : lexer.done = false) (hother : other.done = false)
    (h : Related lexer other) :
    Agree (Tokenwise R lexer.segments) S lexer.tokens other.tokens := by
  induction lexer using pull_induction generalizing other with
  | stop lexer hend =>
    obtain ⟨hagree, -⟩ := hstep lexer other h
    rw [tokens_of_isEnd hdone hend]
    rcases hitem : lexer.nextToken.1 with _ | token
    · rw [hitem] at hend
      cases hend
    · rw [hitem] at hagree hend
      obtain ⟨partner, hpartner, hR⟩ := hagree.of_ok
      have hstop : isEnd other.nextToken.1 = true := by
        rw [hpartner]
        show (partner.kind == _) = true
        rw [← hkind _ _ _ hR]
        exact hend
      rw [tokens_of_isEnd hother hstop]
      exact .ok .nil
  | error lexer error hitem _ =>
    obtain ⟨hagree, -⟩ := hstep lexer other h
    rw [hitem] at hagree
    obtain ⟨partner, hpartner, hS⟩ := hagree.of_error
    rw [tokens_of_error hdone hitem, tokens_of_error hother hpartner]
    exact .error hS
  | token lexer token hitem hend ih =>
    obtain ⟨hagree, hrelated⟩ := hstep lexer other h
    rw [hitem] at hagree
    obtain ⟨partner, hpartner, hR⟩ := hagree.of_ok
    have hgo : partner.isEndOfInput = false := by
      show (partner.kind == _) = false
      rw [← hkind _ _ _ hR]
      exact hend
    have hlater := ih ((done_nextToken lexer).trans hdone) ((done_nextToken other).trans hother)
      hrelated
    have hpull : isEnd lexer.nextToken.1 = false := by
      rw [hitem]
      exact hend
    rw [tokens_of_token hdone hitem hend, tokens_of_token hother hpartner hgo,
      segments_of_not_isEnd hpull]
    exact hlater.map fun _ _ hrest => .cons hitem hR hrest

end Lexer

end Lexis
