import LayeredConfig.Proofs.Document.Extent
import LayeredConfig.Proofs.Document.Transition
import Mathlib.Data.Bool.AllAny

/-!
# Separators between tokens

Separators between two tokens of a document can be added at will. The parser makes the same calls on
the longer text: a call in front of the new separators reads the same text as before
(`Parser.Transition.exists_front`), and a call behind them finds the same text ahead
(`Parser.Transition.of_skipSeparators`).

* `IsGap`: separators that end whatever stands in front of them.
* `IsBoundary`: a place between two tokens of a document.
* `Drains.insert_gap`: a document that is drained without an error gives the same events with a gap
  at such a place.
-/

namespace LayeredConfig.Document

variable {gap before after : List Char}

/-! ### Gaps -/

/-- White space, commas, and comments with the line feeds that end them. -/
inductive Separators : List Char → Prop
  | nil : Separators []
  | cons {c : Char} {rest : List Char} (hc : IsSeparator c) (h : Separators rest) :
      Separators (c :: rest)
  | comment {chars rest : List Char} (hchars : ∀ c ∈ chars, c ≠ '\n' ∧ c ≠ '\r')
      (h : Separators rest) : Separators ('#' :: (chars ++ '\n' :: rest))

/-- Separators that begin with a comma or a line break, which end an unquoted value. -/
structure IsGap (gap : List Char) : Prop where
  separators : Separators gap
  head : ∃ c rest, gap = c :: rest ∧ (c = ',' ∨ c = '\n' ∨ c = '\r')

/-- Inside a comment everything up to a line break is passed over. -/
theorem skipFrom_true_append {chars : List Char} (hchars : ∀ c ∈ chars, c ≠ '\n' ∧ c ≠ '\r')
    (rest : List Char) : skipFrom true (chars ++ rest) = skipFrom true rest := by
  induction chars with
  | nil => rfl
  | cons c chars ih =>
    obtain ⟨hc, hrest⟩ := List.forall_mem_cons.1 hchars
    rw [List.cons_append, skipFrom, if_pos rfl, decide_eq_true hc, ih hrest]

/-- Behind a text of separators only, the scan goes on as if it started there or in a comment. -/
theorem exists_skipFrom_append {inComment : Bool} {text : List Char}
    (h : skipFrom inComment text = []) :
    ∃ inComment', ∀ more, skipFrom inComment (text ++ more) = skipFrom inComment' more := by
  induction text generalizing inComment with
  | nil => exact ⟨inComment, fun more => rfl⟩
  | cons c rest ih =>
    unfold skipFrom at h
    split at h
    next hcomment =>
      obtain ⟨inComment', hall⟩ := ih h
      exact ⟨inComment', fun more => by rw [List.cons_append, skipFrom, if_pos hcomment, hall]⟩
    next hcomment =>
    split at h
    next hc =>
      obtain ⟨inComment', hall⟩ := ih h
      refine ⟨inComment', fun more => ?_⟩
      rw [List.cons_append, skipFrom, if_neg hcomment, if_pos hc, hall]
    next hc =>
    split at h
    next hseparator =>
      obtain ⟨inComment', hall⟩ := ih h
      refine ⟨inComment', fun more => ?_⟩
      rw [List.cons_append, skipFrom, if_neg hcomment, if_neg hc, if_pos hseparator, hall]
    next => exact absurd h (by simp)

namespace Separators

/-- Separators are passed over. -/
theorem skipSeparators_append (h : Separators gap) (rest : List Char) :
    skipSeparators (gap ++ rest) = skipSeparators rest := by
  induction h with
  | nil => rfl
  | cons hc _ ih =>
    have hne : ∀ c, IsSeparator c → c ≠ '#' := by
      rintro _ hc rfl
      exact absurd hc (by unfold IsSeparator; decide)
    rw [List.cons_append, skipSeparators_cons hc (hne _ hc), ih]
  | @comment chars tail hchars _ ih =>
    calc skipSeparators ('#' :: (chars ++ '\n' :: tail) ++ rest)
        = skipFrom true (chars ++ ('\n' :: (tail ++ rest))) := by simp [skipSeparators, skipFrom]
      _ = skipFrom true ('\n' :: (tail ++ rest)) := skipFrom_true_append hchars _
      _ = skipSeparators (tail ++ rest) := by simp [skipSeparators, skipFrom]
      _ = skipSeparators rest := ih

/-- Nothing starts among separators, even if they go on with a comment. -/
theorem skipFrom_eq_nil (h : Separators gap) (inComment : Bool) : skipFrom inComment gap = [] := by
  cases inComment with
  | false => simpa [skipSeparators, skipFrom] using h.skipSeparators_append []
  | true =>
    induction h with
    | nil => rfl
    | @cons c rest hc h ih =>
      rw [skipFrom, if_pos rfl]
      -- a line break ends the comment
      cases decide (c ≠ '\n' ∧ c ≠ '\r') with
      | true => exact ih
      | false => simpa [skipSeparators, skipFrom] using h.skipSeparators_append []
    | @comment chars rest hchars h =>
      have hhash : ∀ c ∈ '#' :: chars, c ≠ '\n' ∧ c ≠ '\r' :=
        List.forall_mem_cons.2 ⟨by decide, hchars⟩
      rw [← List.cons_append, skipFrom_true_append hhash]
      simpa [skipSeparators, skipFrom] using h.skipSeparators_append []

end Separators

namespace IsGap

theorem endsUnquoted (h : IsGap gap) (rest : List Char) : EndsUnquoted (gap ++ rest) := by
  obtain ⟨c, tail, rfl, hc⟩ := h.head
  intro d more hcons
  obtain ⟨rfl, -⟩ := List.cons.inj hcons
  rcases hc with rfl | rfl | rfl <;> decide

theorem exists_breaksEscape (h : IsGap gap) : ∃ c rest, gap = c :: rest ∧ BreaksEscape c := by
  obtain ⟨c, tail, rfl, hc⟩ := h.head
  refine ⟨c, tail, rfl, ?_⟩
  rcases hc with rfl | rfl | rfl <;> exact ⟨by decide, by decide, by decide⟩

end IsGap

/-! ### Calls on other texts -/

/-- A token and the separators in front of it are there whatever follows. -/
theorem exists_front_of_ahead {text token rest : List Char} (hne : token ≠ [])
    (h : skipSeparators text = token ++ rest) : ∃ front, text = front ++ rest ∧
      ∀ more, skipSeparators (front ++ more) = token ++ more := by
  obtain ⟨c, tail, rfl⟩ := List.exists_cons_of_ne_nil hne
  obtain ⟨front, rfl, hfront⟩ := exists_front_of_skipSeparators h
  refine ⟨front ++ c :: tail, by simp, fun more => ?_⟩
  rw [List.append_assoc, hfront, List.cons_append,
    skipSeparators_of_isStart (isStart_of_skipSeparators h)]

namespace Parser

variable {p p' q : Parser} {item : Located} {items : List Located} {text rest : List Char}

/-- The parser in front of another text. -/
def reread (p : Parser) (text rest : List Char) : Parser := { p with text, rest }

/-- Only what is ahead behind separators matters for a call. -/
theorem Transition.of_skipSeparators (transition : Transition p item p')
    (h : skipSeparators rest = skipSeparators p.rest) (text : List Char) :
    Transition (p.reread text rest) item (p'.reread text p'.rest) := by
  cases transition with
  | objectStart hahead => exact .objectStart (h.trans hahead)
  | listStart hahead => exact .listStart (h.trans hahead)
  | objectEnd hahead hframe henclosing => exact .objectEnd (h.trans hahead) hframe henclosing
  | listEnd hahead hframe henclosing => exact .listEnd (h.trans hahead) hframe henclosing
  | key hahead hc hframe hafter hscan => exact .key (h.trans hahead) hc hframe hafter hscan
  | value hahead hc hexpects hnull hscan => exact .value (h.trans hahead) hc hexpects hnull hscan
  | null hahead hc hexpects hnull => exact .null (h.trans hahead) hc hexpects hnull
  | endOfStream hahead henclosing =>
    have hend := Transition.endOfStream (p := p.reread text rest) (h.trans hahead) henclosing
    simpa only [skip, reread, h] using hend

/-- The call takes the front of the text. It does the same in front of any text that starts with
the same character, and leads to the same text ahead if a gap comes in between. -/
structure Transition.TakesFront (p : Parser) (item : Located) (p' : Parser) (front : List Char) :
    Prop where
  rest_eq : p.rest = front ++ p'.rest
  of_head : ∀ c tail more text, p'.rest = c :: tail →
    Transition (p.reread text (front ++ c :: more)) item (p'.reread text (c :: more))
  of_gap : ∀ gap text, IsGap gap → ∃ rest, skipSeparators rest = skipSeparators p'.rest ∧
    Transition (p.reread text (front ++ (gap ++ p'.rest))) item (p'.reread text rest)

/-- A token that ends by itself, or where an unquoted value does, is the same in front of a gap. -/
theorem Transition.TakesFront.of_endsUnquoted {front : List Char}
    (hrest : p.rest = front ++ p'.rest)
    (h : ∀ more text, (EndsUnquoted p'.rest → EndsUnquoted more) →
      Transition (p.reread text (front ++ more)) item (p'.reread text more)) :
    TakesFront p item p' front where
  rest_eq := hrest
  of_head c tail more text hcons := by
    refine h _ _ fun hends d more' hcons' => ?_
    obtain ⟨rfl, -⟩ := List.cons.inj hcons'
    exact hends c tail hcons
  of_gap gap text hgap :=
    ⟨_, hgap.separators.skipSeparators_append _, h _ _ fun _ => hgap.endsUnquoted _⟩

/-- A name that ends in front of an open bracket also does so with a gap in front of the bracket. -/
theorem Transition.TakesFront.of_startsBracket {front : List Char}
    (hrest : p.rest = front ++ p'.rest) (hbracket : StartsBracket p'.rest)
    (h : ∀ c more rest text, BreaksEscape c → skipSeparators (c :: more) = rest →
      StartsBracket rest → Transition (p.reread text (front ++ c :: more)) item
        (p'.reread text rest)) :
    TakesFront p item p' front := by
  obtain ⟨bracket, behind, hbehind, hbracket⟩ := hbracket
  have hskip : ∀ more, skipSeparators (bracket :: more) = bracket :: more := by
    rcases hbracket with rfl | rfl <;>
      exact skipSeparators_of_isStart ⟨by decide, by unfold IsSeparator; decide⟩
  refine ⟨hrest, fun c tail more text hcons => ?_, fun gap text hgap => ?_⟩
  · obtain ⟨rfl, -⟩ := List.cons.inj (hbehind.symm.trans hcons)
    refine h bracket more _ text ?_ (hskip more) ⟨_, _, rfl, hbracket⟩
    rcases hbracket with rfl | rfl <;> exact ⟨by decide, by decide, by decide⟩
  · obtain ⟨c, tail, rfl, hc⟩ := hgap.exists_breaksEscape
    refine ⟨p'.rest, rfl, h c (tail ++ p'.rest) _ text hc ?_ ⟨_, _, hbehind, hbracket⟩⟩
    rw [← List.cons_append, hgap.separators.skipSeparators_append, hbehind, hskip]

/-- Every call takes the front of the text. -/
theorem Transition.exists_front (transition : Transition p item p') :
    ∃ front, TakesFront p item p' front := by
  cases transition with
  | objectStart hahead =>
    obtain ⟨front, hrest, hfront⟩ := exists_front_of_ahead (List.cons_ne_nil '{' []) hahead
    exact ⟨front, .of_endsUnquoted hrest fun more _ _ => .objectStart (hfront more)⟩
  | listStart hahead =>
    obtain ⟨front, hrest, hfront⟩ := exists_front_of_ahead (List.cons_ne_nil '[' []) hahead
    exact ⟨front, .of_endsUnquoted hrest fun more _ _ => .listStart (hfront more)⟩
  | objectEnd hahead hframe henclosing =>
    obtain ⟨front, hrest, hfront⟩ := exists_front_of_ahead (List.cons_ne_nil '}' []) hahead
    refine ⟨front, .of_endsUnquoted hrest fun more _ _ => ?_⟩
    exact .objectEnd (hfront more) hframe henclosing
  | listEnd hahead hframe henclosing =>
    obtain ⟨front, hrest, hfront⟩ := exists_front_of_ahead (List.cons_ne_nil ']' []) hahead
    refine ⟨front, .of_endsUnquoted hrest fun more _ _ => ?_⟩
    exact .listEnd (hfront more) hframe henclosing
  | @key c _ rest name last hahead hc hframe hafter hscan =>
    obtain ⟨token, htoken, htaken⟩ := exists_front_of_scanKey hscan
    have hne : token ≠ [] := by
      rintro rfl
      simpa [htoken] using length_lt_of_scanKey hscan
    obtain ⟨first, token, rfl⟩ := List.exists_cons_of_ne_nil hne
    obtain ⟨rfl, rfl⟩ := List.cons.inj htoken
    obtain ⟨front, hrest, hfront⟩ := exists_front_of_ahead hne hahead
    rcases htaken with hall | ⟨hbracket, hall⟩
    · exact ⟨front, .of_endsUnquoted hrest fun more _ _ =>
        .key (hfront more) hc hframe hafter (hall more)⟩
    · exact ⟨front, .of_startsBracket hrest hbracket fun d more rest text hd hskip hstarts =>
        .key (hfront _) hc hframe hafter (hall d more rest hd hskip hstarts)⟩
  | value hahead hc hexpects hnull hscan =>
    obtain ⟨token, htoken, hne, hall⟩ := exists_front_of_scanValue (by simp) hscan hnull
    obtain ⟨first, token, rfl⟩ := List.exists_cons_of_ne_nil hne
    obtain ⟨rfl, rfl⟩ := List.cons.inj htoken
    obtain ⟨front, hrest, hfront⟩ := exists_front_of_ahead hne hahead
    refine ⟨front, .of_endsUnquoted hrest fun more _ hmore => ?_⟩
    exact .value (hfront more) hc hexpects (hall more hmore).2 (hall more hmore).1
  | @null c more hahead hc hexpects hnull =>
    rcases hsplit : splitUnquoted (c :: more) with ⟨chars, rest⟩
    rw [hsplit] at hnull
    obtain ⟨htoken, hne, hends, hall⟩ := exists_front_of_splitUnquoted hsplit (by simp)
    obtain ⟨first, chars, rfl⟩ := List.exists_cons_of_ne_nil hne
    obtain ⟨rfl, rfl⟩ := List.cons.inj htoken
    obtain ⟨front, hrest, hfront⟩ := exists_front_of_ahead hne hahead
    refine ⟨front, .of_endsUnquoted hrest fun more text hmore => ?_⟩
    have hsplit : splitUnquoted (c :: (chars ++ more)) = (c :: chars, more) :=
      hall more (hmore hends)
    have hahead : skipSeparators (p.reread text (front ++ more)).rest = c :: (chars ++ more) :=
      hfront more
    have hread := Transition.null hahead hc hexpects (by rwa [hsplit])
    rwa [hsplit] at hread
  | endOfStream hahead henclosing =>
    -- a gap at the end of the text is still followed by the end
    refine ⟨p.rest, ?_, fun c tail more text hcons => ?_, fun gap text hgap => ?_⟩
    · simp [skip, hahead]
    · exact absurd (hahead.symm.trans hcons) (by simp)
    · obtain ⟨inComment, hall⟩ := exists_skipFrom_append hahead
      have hend : skipSeparators (p.rest ++ (gap ++ skipSeparators p.rest)) = [] := by
        rw [hahead, List.append_nil, skipSeparators, hall, hgap.separators.skipFrom_eq_nil]
      have hread := Transition.endOfStream (p := p.reread text _) hend henclosing
      refine ⟨[], by simp [skip, hahead], ?_⟩
      simpa only [skip, reread, hend] using hread

/-! ### Runs on other texts -/

/-- Only what is ahead behind separators matters for a run. -/
theorem exists_run_of_skipSeparators (run : Run Parser.next p items q)
    (h : skipSeparators rest = skipSeparators p.rest) (text : List Char) :
    ∃ rest', skipSeparators rest' = skipSeparators q.rest ∧
      Run Parser.next (p.reread text rest) items (q.reread text rest') := by
  induction run generalizing rest with
  | nil => exact ⟨rest, h, .nil _⟩
  | cons head _ ih =>
    -- behind the first call the text ahead is the same
    obtain ⟨rest', hrest', tail⟩ := ih rfl
    have hhead := (transition_of_next head).of_skipSeparators h text
    exact ⟨rest', hrest', .cons (next_of_transition hhead) tail⟩

/-- A run takes the front of the text. It makes the same calls if a gap comes in between, and the
same text is ahead behind them. -/
theorem exists_run_of_isGap (run : Run Parser.next p items q) (hgap : IsGap gap) :
    ∃ front, p.rest = front ++ q.rest ∧ ∀ text, ∃ rest,
      skipSeparators rest = skipSeparators q.rest ∧
        Run Parser.next (p.reread text (front ++ (gap ++ q.rest))) items (q.reread text rest) := by
  induction run with
  | nil => exact ⟨[], rfl, fun text => ⟨_, hgap.separators.skipSeparators_append _, .nil _⟩⟩
  | @cons p p' q item items head tail ih =>
    obtain ⟨first, hfirst, hhead, hgapped⟩ := (transition_of_next head).exists_front
    obtain ⟨second, hsecond, hrun⟩ := ih
    refine ⟨first ++ second, by rw [hfirst, hsecond, List.append_assoc], fun text => ?_⟩
    cases second with
    -- the gap comes right behind the first call
    | nil =>
      obtain ⟨rest, hrest, hcall⟩ := hgapped gap text hgap
      obtain ⟨rest', hrest', tail⟩ := exists_run_of_skipSeparators tail hrest text
      refine ⟨rest', hrest', .cons (next_of_transition ?_) tail⟩
      rwa [List.append_nil, ← List.nil_append q.rest, ← hsecond]
    | cons c second =>
      obtain ⟨rest, hrest, tail⟩ := hrun text
      refine ⟨rest, hrest, .cons (next_of_transition ?_) tail⟩
      have hcall := hhead c (second ++ q.rest) (second ++ (gap ++ q.rest)) text hsecond
      rwa [List.append_assoc, List.cons_append]

end Parser

/-- The text of a document splits at a place that the parser stands at: at the start, or right
behind a token. -/
def IsBoundary (text : String) (before after : List Char) : Prop :=
  text.toList = before ++ after ∧ ∃ items p, Run Parser.next (.ofText text) items p ∧ p.rest = after

/-- Separators between the tokens of a document that is drained without an error do not change what
it gives. -/
theorem Drains.insert_gap {text : String} {items : List Located} (h : Drains text items)
    (hboundary : IsBoundary text before after) (hgap : IsGap gap) :
    Drains (String.ofList (before ++ gap ++ after)) items := by
  obtain ⟨front, last, hitems, hfront, full⟩ := drains_iff.1 h
  obtain ⟨htext, passed, p, run, rfl⟩ := hboundary
  suffices hfull : ∃ q,
      Run Parser.next (.ofText (String.ofList (before ++ gap ++ p.rest))) items q by
    obtain ⟨q, hfull⟩ := hfull
    exact drains_iff.2 ⟨front, q, hitems, hfront, hfull⟩
  -- the calls up to the gap are made in front of it
  obtain ⟨front, hrest, hgapped⟩ := Parser.exists_run_of_isGap run hgap
  obtain rfl : front = before := List.append_cancel_right (hrest.symm.trans htext)
  obtain ⟨rest, hahead, first⟩ := hgapped (front ++ gap ++ p.rest)
  have hstart : Parser.ofText (String.ofList (front ++ gap ++ p.rest)) =
      (Parser.ofText text).reread (front ++ gap ++ p.rest) (front ++ (gap ++ p.rest)) := by
    simp [Parser.ofText, Parser.reread]
  rw [hstart]
  rcases run.prefix_or_prefix full with ⟨more, rfl⟩ | ⟨more, rfl⟩
  -- those behind it find the same text ahead
  · obtain ⟨p', run', tail⟩ := full.of_append
    obtain rfl := run.unique run'
    obtain ⟨rest', -, tail⟩ := Parser.exists_run_of_skipSeparators tail hahead _
    exact ⟨_, first.append tail⟩
  -- the gap may stand behind the end
  · obtain ⟨q, first, -⟩ := first.of_append
    exact ⟨q, first⟩

/-- The events of a document in which a brace ends a name and a value. -/
def bracedEntry : List Located :=
  [⟨.key "a", "a"⟩, ⟨.objectStart, "a"⟩, ⟨.key "b", "a.b"⟩, ⟨.value (.string "c"), "a.b"⟩,
    ⟨.objectEnd, "a"⟩]

/-- A comment may stand between a name and the brace that ends it. -/
theorem insert_gap_bracedEntry :
    Drains (String.ofList ("a ".toList ++ ",# d\n".toList ++ "{b: c}".toList))
      (bracedEntry ++ [⟨.endOfStream, ""⟩]) := by
  have hdrains : Drains "a {b: c}" (bracedEntry ++ [⟨.endOfStream, ""⟩]) :=
    drains_iff.2 ⟨bracedEntry, ⟨"a {b: c}".toList, [], .object (some "a"), [], false⟩, rfl,
      by decide, by decide +kernel⟩
  have hboundary : IsBoundary "a {b: c}" "a ".toList "{b: c}".toList :=
    ⟨by decide, [⟨.key "a", "a"⟩],
      ⟨"a {b: c}".toList, "{b: c}".toList, .object (some "a"), [], true⟩, by decide +kernel, rfl⟩
  have hcomment : Separators ('#' :: (" d".toList ++ '\n' :: [])) :=
    .comment (List.all_iff_forall_prop.1 (by decide)) .nil
  exact hdrains.insert_gap hboundary ⟨.cons (.inr rfl) hcomment, _, _, rfl, .inl rfl⟩

end LayeredConfig.Document
