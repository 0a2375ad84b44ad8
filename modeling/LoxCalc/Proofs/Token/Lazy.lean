import LoxCalc.Proofs.Token.Respelling
import LoxCalc.Proofs.Token.Slices
import Mathlib.Data.List.Basic
import Mathlib.Logic.Function.Iterate

/-!
# Tokens one at a time

Between two tokens a stream skips what belongs to no token, and it does so only when the second one
is asked for. `Behind` says where a stream stands and which faults it has found by then. Main
statement: `answers_eq_eager`, whatever is asked of a stream and in whatever order, the tokens are
those of the whole source, and the faults are those that start before the last of them ends.
-/

namespace LoxCalc

namespace Piece

/-- Whether a piece is a token. -/
def isToken : Piece → Bool
  | token .. => true
  | _ => false

/-- A piece in its place: the line that it ends on, and the bytes of the source before it and up to
its end. -/
structure Spot where
  piece : Piece
  line : Nat
  start : Nat
  stop : Nat

/-- The fault that a piece is, and the bytes before the input that it skips. -/
def Spot.fault? (s : Spot) : Option (LexicalFault × Nat) :=
  (Piece.fault? (s.piece, s.line)).map (·, s.start)

/-- The token that a piece is, and the bytes up to the end of its lexeme. -/
def Spot.token? (s : Spot) : Option (Token × Nat) :=
  (Piece.token? (s.piece, s.line)).map (·, s.stop)

/-- The places of pieces, if the first one starts on a line and behind some bytes. -/
def spots (line offset : Nat) : List Piece → List Spot
  | [] => []
  | p :: ps =>
    ⟨p, line + Text.lineFeeds p.text, offset, offset + Text.utf8Length p.text⟩ ::
      spots (line + Text.lineFeeds p.text) (offset + Text.utf8Length p.text) ps

/-- The faults of a source that is cut, each with the place at which it starts. -/
def faultStarts (ps : List Piece) : List (LexicalFault × Nat) :=
  (spots 1 0 ps).filterMap Spot.fault?

/-- The tokens of a source that is cut, each with the place at which its lexeme ends. The end of
input is where the source ends. -/
def tokenStops (ps : List Piece) : List (Token × Nat) :=
  (spots 1 0 ps).filterMap Spot.token? ++
    [(.endOn (1 + Text.lineFeeds (ps.flatMap text)), Text.utf8Length (ps.flatMap text))]

/-- Where the `n`-th token ends, or the last one if there are fewer. -/
def reach (ps : List Piece) (n : Nat) : Nat :=
  (((tokenStops ps).take n).getLast?.map Prod.snd).getD 0

/-- The faults that start before the `n`-th token ends. -/
def faultsBefore (ps : List Piece) (n : Nat) : List LexicalFault :=
  ((faultStarts ps).filter (·.2 < reach ps n)).map Prod.fst

/-! ### Places -/

section Spots

variable {ps before after : List Piece} {line offset : Nat} {s : Spot}

theorem spots_append (line offset : Nat) (ps qs : List Piece) :
    spots line offset (ps ++ qs) = spots line offset ps ++
      spots (line + Text.lineFeeds (ps.flatMap text)) (offset + Text.utf8Length (ps.flatMap text))
        qs := by
  induction ps generalizing line offset with
  | nil => rfl
  | cons p ps ih =>
    rw [List.cons_append, spots, ih, List.flatMap_cons, Text.lineFeeds_append,
      Text.utf8Length_append, spots, List.cons_append, Nat.add_assoc, Nat.add_assoc]

theorem map_spots (line offset : Nat) (ps : List Piece) :
    (spots line offset ps).map (fun s => (s.piece, s.line)) = placed line ps := by
  induction ps generalizing line offset with
  | nil => rfl
  | cons p ps ih => rw [spots, placed, List.map_cons, ih]

/-- What is made of pieces on their lines, with the places left out. -/
theorem map_fst_filterMap_spots {α : Type} {f : Spot → Option (α × Nat)}
    {g : Piece × Nat → Option α} (h : ∀ s, (f s).map Prod.fst = g (s.piece, s.line))
    (line offset : Nat) (ps : List Piece) :
    ((spots line offset ps).filterMap f).map Prod.fst = (placed line ps).filterMap g := by
  rw [← map_spots line offset, List.filterMap_map, List.map_filterMap]
  congr 1
  funext s
  exact h s

theorem map_fst_fault? (s : Spot) : s.fault?.map Prod.fst = fault? (s.piece, s.line) := by
  simp [Spot.fault?, Function.comp_def]

theorem map_fst_token? (s : Spot) : s.token?.map Prod.fst = token? (s.piece, s.line) := by
  simp [Spot.token?, Function.comp_def]

theorem map_fst_faultStarts (ps : List Piece) :
    (faultStarts ps).map Prod.fst = (placed 1 ps).filterMap fault? :=
  map_fst_filterMap_spots map_fst_fault? 1 0 ps

theorem map_fst_tokenStops (ps : List Piece) : (tokenStops ps).map Prod.fst =
    (placed 1 ps).filterMap token? ++ [.endOn (1 + Text.lineFeeds (ps.flatMap text))] := by
  rw [tokenStops, List.map_append, map_fst_filterMap_spots map_fst_token?]
  rfl

/-- Pieces start behind what is before the first one. -/
theorem le_start_of_mem_spots (h : s ∈ spots line offset ps) : offset ≤ s.start := by
  induction ps generalizing line offset with
  | nil => simp [spots] at h
  | cons q ps ih =>
    rcases List.mem_cons.1 h with rfl | h
    · exact Nat.le_refl offset
    · exact (Nat.le_add_right _ _).trans (ih h)

/-- Pieces that are not empty start before the last one ends. -/
theorem start_lt_of_mem_spots (hps : ∀ p ∈ ps, p.text ≠ []) (h : s ∈ spots line offset ps) :
    s.start < offset + Text.utf8Length (ps.flatMap text) := by
  induction ps generalizing line offset with
  | nil => simp [spots] at h
  | cons q ps ih =>
    obtain ⟨hq, hps⟩ := List.forall_mem_cons.1 hps
    rw [List.flatMap_cons, Text.utf8Length_append, ← Nat.add_assoc]
    rcases List.mem_cons.1 h with rfl | h
    · have := Text.utf8Length_pos hq
      dsimp only
      omega
    · exact ih hps h

theorem snd_of_mem_filterMap_fault? {ss : List Spot} {f : LexicalFault × Nat}
    (h : f ∈ ss.filterMap Spot.fault?) : ∃ s ∈ ss, f.2 = s.start := by
  obtain ⟨s, hs, hf⟩ := List.mem_filterMap.1 h
  obtain ⟨fault, -, rfl⟩ := Option.map_eq_some_iff.1 hf
  exact ⟨s, hs, rfl⟩

/-- The faults that start before the end of some first pieces are those of these pieces. -/
theorem map_fst_filter_faultStarts (h : ∀ p ∈ before, p.text ≠ []) (after : List Piece) :
    ((faultStarts (before ++ after)).filter
        (·.2 < Text.utf8Length (before.flatMap text))).map Prod.fst =
      (placed 1 before).filterMap fault? := by
  rw [faultStarts, spots_append, List.filterMap_append, List.filter_append, Nat.zero_add,
    List.filter_eq_self.2, List.filter_eq_nil_iff.2, List.append_nil]
  · exact map_fst_faultStarts before
  · intro f hf
    obtain ⟨s, hs, heq⟩ := snd_of_mem_filterMap_fault? hf
    simpa [heq] using le_start_of_mem_spots hs
  · intro f hf
    obtain ⟨s, hs, heq⟩ := snd_of_mem_filterMap_fault? hf
    simpa [heq] using start_lt_of_mem_spots h hs

theorem length_filterMap_token? (line offset : Nat) (ps : List Piece) :
    ((spots line offset ps).filterMap Spot.token?).length = ps.countP isToken := by
  induction ps generalizing line offset with
  | nil => rfl
  | cons p ps ih =>
    cases p with
    | token data text =>
      rw [List.countP_cons_of_pos rfl, ← ih]
      rfl
    | _ =>
      rw [List.countP_cons_of_neg Bool.false_ne_true, ← ih]
      rfl

/-- Whether some pieces end with a token, unless there are none. -/
def EndsInToken (ps : List Piece) : Prop := ∀ p ∈ ps.getLast?, p.isToken

/-- Pieces that end with a token end where their last token does. -/
theorem reach_append (h : EndsInToken before) (after : List Piece) :
    reach (before ++ after) (before.countP isToken) = Text.utf8Length (before.flatMap text) := by
  have htake : (tokenStops (before ++ after)).take (before.countP isToken) =
      (spots 1 0 before).filterMap Spot.token? := by
    rw [tokenStops, spots_append, List.filterMap_append, List.append_assoc]
    exact List.take_left' (length_filterMap_token? 1 0 before)
  rw [reach, htake]
  rcases before.eq_nil_or_concat' with rfl | ⟨front, p, rfl⟩
  · rfl
  · have hp : p.isToken := h p List.getLast?_concat
    cases p with
    | token data lexeme =>
      rw [spots_append, List.filterMap_append]
      simp [spots, Spot.token?, token?, text]
    | _ => cases hp

/-- Behind the last token is the end of the source. -/
theorem reach_of_lt {n : Nat} (h : ps.countP isToken < n) :
    reach ps n = Text.utf8Length (ps.flatMap text) := by
  have hlength : (tokenStops ps).length ≤ n := by
    rw [tokenStops, List.length_append, length_filterMap_token?]
    exact h
  rw [reach, List.take_of_length_le hlength, tokenStops, List.getLast?_concat]
  rfl

end Spots

theorem Cut.text_ne_nil {source : List Char} {ps : List Piece} (h : Cut source ps) :
    ∀ p ∈ ps, p.text ≠ [] := by
  intro p hp
  obtain ⟨rest, hfits⟩ := h.exists_fits hp
  exact hfits.text_ne_nil

end Piece

namespace TokenStream

open Piece (Cut placed token? fault? faultsBefore)

/-! ### One token more -/

/-- The stream behind its next token. A stream at the end of the input stays there. -/
def behindNext (s : TokenStream) : TokenStream := (s.next?.map Prod.snd).getD s

section Next

variable {s : TokenStream}

theorem behindNext_of_finished (hs : s.finished = true) : s.behindNext = s := by
  simp [behindNext, next?, hs]

theorem behindNext_of_not_finished (hs : s.finished = false) : s.behindNext = s.advance.2 := by
  simp [behindNext, next?, hs]

/-- The next token is the first of those that a stream still holds. -/
theorem map_fst_next? (s : TokenStream) : s.next?.map Prod.fst = s.drain.1.head? := by
  rw [drain]
  split
  next h => simp [h]
  next h => simp [h]

theorem drain_behindNext (s : TokenStream) : s.behindNext.drain = (s.drain.1.tail, s.drain.2) := by
  cases hs : s.finished with
  | true => rw [behindNext_of_finished hs, drain_of_finished hs, List.tail_nil]
  | false => rw [behindNext_of_not_finished hs, drain_of_advance hs, List.tail_cons]

/-- A stream holds the tokens that it has not returned, and ends where it would have ended. -/
theorem drain_iterate_behindNext (s : TokenStream) (n : Nat) :
    (behindNext^[n] s).drain = (s.drain.1.drop n, s.drain.2) := by
  induction n with
  | zero => rfl
  | succ n ih => rw [Function.iterate_succ_apply', drain_behindNext, ih, List.tail_drop]

end Next

/-! ### Where a stream stands -/

/-- A stream stands between some pieces of its source and the others, and has found the faults of
the first ones. -/
structure Behind (before after : List Piece) (s : TokenStream) : Prop where
  cut : Cut s.cursor.rest after
  line_eq : s.cursor.line = 1 + Text.lineFeeds (before.flatMap Piece.text)
  faults_eq : s.lexicalFaults = (placed 1 before).filterMap fault?

section Behind

variable {s : TokenStream} {p : Piece} {before after pieces : List Piece}

theorem behind_ofString {source : String} (h : Cut source.toList pieces) :
    Behind [] pieces (ofString source) := ⟨h, rfl, rfl⟩

/-- A stream that reads a piece stands behind it. -/
theorem Behind.read (h : Behind before (p :: after) s) :
    s.cursor.Reads p ∧ Behind (before ++ [p]) after (s.behind p) := by
  obtain ⟨hcut, hline, hfaults⟩ := h
  generalize hrest : s.cursor.rest = rest at hcut
  cases hcut with
  | @cons _ rest _ stands more =>
    refine ⟨(Cursor.stands_iff hrest).1 stands, ?_, ?_, ?_⟩
    · have hbehind : (s.behind p).cursor.rest = rest := Cursor.rest_pass hrest
      rwa [hbehind]
    · have hfeeds : Text.lineFeeds ((before ++ [p]).flatMap Piece.text) =
          Text.lineFeeds (before.flatMap Piece.text) + Text.lineFeeds p.text := by
        rw [List.flatMap_append, List.flatMap_singleton, Text.lineFeeds_append]
      rw [hfeeds, ← Nat.add_assoc, ← hline]
      rfl
    · rw [Piece.placed_append, List.filterMap_append, ← hfaults, ← hline]
      cases p <;> simp [lexicalFaults, behind, placed, fault?]

/-- A stream goes up to the end of the next token, or over all that is left if there is none. -/
theorem Behind.advance (h : Behind before after s) (hs : s.finished = false) :
    (∃ skipped p more, after = skipped ++ p :: more ∧ (∀ q ∈ skipped, ¬q.isToken) ∧ p.isToken ∧
      Behind (before ++ skipped ++ [p]) more s.advance.2 ∧ s.advance.2.finished = false) ∨
    (∀ q ∈ after, ¬q.isToken) ∧ Behind (before ++ after) [] s.advance.2 ∧
      s.advance.2.finished = true := by
  induction after generalizing before s with
  | nil =>
    have hend := h.cut
    generalize hrest : s.cursor.rest = rest at hend
    cases hend with
    | nil =>
      rw [advance_of_end hrest, List.append_nil]
      exact .inr ⟨by simp, ⟨h.cut, h.line_eq, h.faults_eq⟩, rfl⟩
  | cons p after ih =>
    obtain ⟨hreads, hbehind⟩ := h.read
    rw [advance_of_reads hreads]
    by_cases hp : p.isToken
    · left
      cases p with
      | token data text =>
        rw [← List.append_nil before] at hbehind
        exact ⟨[], _, after, rfl, by simp, hp, hbehind, hs⟩
      | _ => cases hp
    · have hnone : token? (p, s.cursor.line + Text.lineFeeds p.text) = none := by
        cases p with
        | token data text => exact absurd rfl hp
        | _ => rfl
      rw [hnone]
      rcases ih hbehind hs with ⟨skipped, q, more, rfl, hskipped, hq, hmore, hmore'⟩ |
        ⟨hskipped, hmore, hmore'⟩
      · refine .inl ⟨p :: skipped, q, more, rfl, List.forall_mem_cons.2 ⟨hp, hskipped⟩, hq, ?_,
          hmore'⟩
        simpa using hmore
      · exact .inr ⟨List.forall_mem_cons.2 ⟨hp, hskipped⟩, by simpa using hmore, hmore'⟩

/-- Where a stream stands that was asked for some tokens: behind the last one returned, or at the
end of the source. -/
theorem behind_iterate_behindNext {source : String} (h : Cut source.toList pieces) (n : Nat) :
    (∃ before after, pieces = before ++ after ∧ Piece.EndsInToken before ∧
      before.countP Piece.isToken = n ∧ Behind before after (behindNext^[n] (ofString source)) ∧
      (behindNext^[n] (ofString source)).finished = false) ∨
    pieces.countP Piece.isToken < n ∧ Behind pieces [] (behindNext^[n] (ofString source)) ∧
      (behindNext^[n] (ofString source)).finished = true := by
  induction n with
  | zero => exact .inl ⟨[], pieces, rfl, by simp [Piece.EndsInToken], rfl, behind_ofString h, rfl⟩
  | succ n ih =>
    rw [Function.iterate_succ_apply']
    rcases ih with ⟨before, after, rfl, -, hcount, hbehind, hs⟩ | ⟨hcount, hbehind, hs⟩
    · rw [behindNext_of_not_finished hs]
      have hnone : ∀ {ps : List Piece}, (∀ q ∈ ps, ¬q.isToken) → ps.countP Piece.isToken = 0 :=
        List.countP_eq_zero.2
      rcases hbehind.advance hs with ⟨skipped, p, more, rfl, hskipped, hp, hmore, hs'⟩ |
        ⟨hskipped, hend, hs'⟩
      · refine .inl ⟨before ++ skipped ++ [p], more, by simp, by simpa [Piece.EndsInToken] using hp,
          ?_, hmore, hs'⟩
        rw [List.countP_append, List.countP_append, hcount, hnone hskipped, List.countP_singleton,
          if_pos hp]
      · refine .inr ⟨?_, hend, hs'⟩
        rw [List.countP_append, hcount, hnone hskipped]
        exact Nat.lt_succ_self n
    · rw [behindNext_of_finished hs]
      exact .inr ⟨Nat.lt_succ_of_lt hcount, hbehind, hs⟩

/-- A stream that was asked for some tokens has found the faults before the end of the last one. -/
theorem lexicalFaults_iterate_behindNext {source : String} (h : Cut source.toList pieces)
    (n : Nat) : (behindNext^[n] (ofString source)).lexicalFaults = faultsBefore pieces n := by
  have hne := h.text_ne_nil
  rcases behind_iterate_behindNext h n with ⟨before, after, rfl, hends, rfl, hbehind, -⟩ |
    ⟨hcount, hbehind, -⟩
  · have hbefore : ∀ p ∈ before, p.text ≠ [] := fun p hp => hne p (List.mem_append_left _ hp)
    rw [faultsBefore, Piece.reach_append hends, Piece.map_fst_filter_faultStarts hbefore,
      hbehind.faults_eq]
  · have hall := Piece.map_fst_filter_faultStarts hne []
    rw [List.append_nil] at hall
    rw [faultsBefore, Piece.reach_of_lt hcount, hall, hbehind.faults_eq]

/-- What a stream has found is how the faults of the source begin. -/
theorem faultsBefore_prefix {source : String} (h : Cut source.toList pieces) (n : Nat) :
    faultsBefore pieces n <+: (placed 1 pieces).filterMap fault? := by
  rw [← lexicalFaults_iterate_behindNext h n]
  rcases behind_iterate_behindNext h n with ⟨before, after, rfl, -, -, hbehind, -⟩ |
    ⟨-, hbehind, -⟩
  · rw [hbehind.faults_eq, Piece.placed_append, List.filterMap_append]
    exact List.prefix_append _ _
  · exact hbehind.faults_eq ▸ List.prefix_rfl

theorem faultsBefore_of_lt {source : String} (h : Cut source.toList pieces) {n : Nat}
    (hn : pieces.countP Piece.isToken < n) :
    faultsBefore pieces n = (placed 1 pieces).filterMap fault? := by
  rw [← lexicalFaults_iterate_behindNext h n]
  rcases behind_iterate_behindNext h n with ⟨before, after, rfl, -, rfl, -, -⟩ | ⟨-, hbehind, -⟩
  · rw [List.countP_append] at hn
    omega
  · exact hbehind.faults_eq

end Behind

/-! ### Any requests -/

/-- What can be asked of a stream: its next token, or the faults found so far. -/
inductive Request
  | next
  | faults
  deriving DecidableEq

/-- What a stream answers. Behind the end of the input there is no next token. -/
inductive Answer
  | token (t : Option Token)
  | faults (found : List LexicalFault)

/-- The answer to a request, and the stream behind it. -/
def answer (s : TokenStream) : Request → Answer × TokenStream
  | .next => (.token (s.next?.map Prod.fst), s.behindNext)
  | .faults => (.faults s.lexicalFaults, s)

/-- The answers to some requests, one after another, and the stream behind them. -/
def answers (s : TokenStream) : List Request → List Answer × TokenStream
  | [] => ([], s)
  | r :: rs => ((s.answer r).1 :: ((s.answer r).2.answers rs).1, ((s.answer r).2.answers rs).2)

/-- The answers to some requests if all tokens are known, and the faults found at each of them;
`n` tokens have been returned before. -/
def eagerAnswers (tokens : List Token) (found : Nat → List LexicalFault) (n : Nat) :
    List Request → List Answer
  | [] => []
  | .next :: rs => .token tokens[n]? :: eagerAnswers tokens found (n + 1) rs
  | .faults :: rs => .faults (found n) :: eagerAnswers tokens found n rs

/-- Only the requests for a token move a stream. -/
theorem answers_snd (s : TokenStream) (requests : List Request) :
    (s.answers requests).2 = behindNext^[requests.count .next] s := by
  induction requests generalizing s with
  | nil => rfl
  | cons r rs ih =>
    rw [answers, ih]
    cases r with
    | next => rw [List.count_cons_self, Function.iterate_succ_apply]; rfl
    | faults => rw [List.count_cons_of_ne (by decide)]; rfl

theorem answers_fst (s : TokenStream) (n : Nat) (requests : List Request) :
    ((behindNext^[n] s).answers requests).1 =
      eagerAnswers s.drain.1 (fun k => (behindNext^[k] s).lexicalFaults) n requests := by
  induction requests generalizing n with
  | nil => rfl
  | cons r rs ih =>
    cases r with
    | next =>
      have hnext : (behindNext^[n] s).next?.map Prod.fst = s.drain.1[n]? := by
        rw [map_fst_next?, drain_iterate_behindNext, List.head?_drop]
      rw [answers, eagerAnswers, ← ih (n + 1), Function.iterate_succ_apply', ← hnext]
      rfl
    | faults =>
      rw [answers, eagerAnswers, ← ih n]
      rfl

/-- Reading a source bit by bit agrees with reading it at once, at every place where one can stop.
Whatever is asked of a stream and in whatever order, it answers with the tokens of the source one
after another, and with the faults that start before the last token returned ends: none before the
first token, and all from the end of the input on. Asking for faults does not move the stream.
Finishing then returns the other tokens and reports what reading at once does; a report tells only
of the faults found so far. -/
theorem answers_eq_eager (source : String) (requests : List Request) (r : Report) :
    let tokens := (scan source r).1
    let returned := requests.count .next
    let s := ((ofString source).answers requests).2
    ∃ pieces, (∀ qs, Cut source.toList qs ↔ qs = pieces) ∧
      (Piece.tokenStops pieces).map Prod.fst = tokens ∧
      (Piece.faultStarts pieces).map Prod.fst = faultsOf source ∧
      ((ofString source).answers requests).1 =
        eagerAnswers tokens (faultsBefore pieces) 0 requests ∧
      s = ((ofString source).answers (requests.filter (· = .next))).2 ∧
      (∀ n, faultsBefore pieces n <+: faultsOf source) ∧ faultsBefore pieces 0 = [] ∧
      (∀ n, tokens.length ≤ n → faultsBefore pieces n = faultsOf source) ∧
      s.finish r = (tokens.drop returned, (scan source r).2) ∧
      s.report r = r.addAll ((faultsBefore pieces returned).map LexicalFault.issue) := by
  intro tokens returned s
  obtain ⟨pieces, hpieces⟩ := Piece.existsUnique_cut source.toList
  have hcut : Cut source.toList pieces := (hpieces pieces).2 rfl
  obtain ⟨htokens, hfaults⟩ := scan_of_cut hcut
  have hfound := lexicalFaults_iterate_behindNext hcut
  have hs : s = behindNext^[returned] (ofString source) := answers_snd _ requests
  have hdrain : s.drain = (tokens.drop returned, (ofString source).drain.2) := by
    rw [hs, drain_iterate_behindNext]
    rfl
  refine ⟨pieces, hpieces, ?_, ?_, ?_, ?_, ?_, ?_, ?_, ?_, ?_⟩
  · rw [Piece.map_fst_tokenStops, Piece.flatMap_text_of_cut hcut]
    exact (htokens r).symm
  · rw [Piece.map_fst_faultStarts, hfaults]
  · have hanswers := answers_fst (ofString source) 0 requests
    rwa [funext hfound] at hanswers
  · rw [hs, answers_snd, List.count_filter (by decide)]
  · rw [hfaults]
    exact faultsBefore_prefix hcut
  · exact (hfound 0).symm
  · intro n hn
    have hcount : tokens.length = pieces.countP Piece.isToken + 1 := by
      have hlength := congrArg List.length (Piece.map_fst_tokenStops pieces)
      rw [Piece.flatMap_text_of_cut hcut, ← htokens r, List.length_map, Piece.tokenStops,
        List.length_append, Piece.length_filterMap_token?] at hlength
      exact hlength.symm
    rw [hfaults]
    exact faultsBefore_of_lt hcut (by omega)
  · rw [finish, hdrain]
    rfl
  · rw [report, hs, hfound]

/-- The fault before the only token is found with it, and the one behind it with the end of the
input. -/
theorem answers_eq_eager_stray :
    (scan "@1 #" .empty).1.length ≤ 2 ∧
      ((ofString "@1 #").answers [.faults, .next, .next, .faults, .next]).1 =
        [.faults [], .token (some ⟨.number 1, "1", 1⟩), .token (some (.endOn 1)),
          .faults [.unexpectedCharacter '@' 1, .unexpectedCharacter '#' 1], .token none] := by
  have hlength : (scan "@1 #" .empty).1.length ≤ 2 := by decide +kernel
  have htokens : (scan "@1 #" .empty).1 = [⟨.number 1, "1", 1⟩, .endOn 1] := by decide +kernel
  have hfaults : faultsOf "@1 #" = [.unexpectedCharacter '@' 1, .unexpectedCharacter '#' 1] := by
    decide +kernel
  obtain ⟨pieces, -, -, -, hanswers, -, -, hnone, hall, -⟩ :=
    answers_eq_eager "@1 #" [.faults, .next, .next, .faults, .next] .empty
  refine ⟨hlength, ?_⟩
  rw [hanswers, htokens]
  simp only [eagerAnswers, hnone, hall 2 hlength, hfaults]
  rfl

end TokenStream

end LoxCalc
