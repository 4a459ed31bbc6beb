import Mathlib.Data.List.Nodup
import Mathlib.Data.List.GetD
import LoxScript.Proofs.PrintedPrograms
import LoxScript.Proofs.TokenPlaces

/-!
Phrases in another place.

A token of a source says where it stands, so no two tokens of a source are the same. The grammar
does not see places: what is derived from the tokens of a source is derived from the same tokens
elsewhere, with the same tree but for the places in it.
-/
namespace LoxScript

open Grammar Scan

/-! ### Places of tokens -/

section Places
variable {t : Token} {source : String} {front back front' back' : List Char}

/-- Nothing lies between two places of a token. -/
theorem Token.StandsIn.eq_of_prefix (h : t.StandsIn source front back)
    (h' : t.StandsIn source front' back') (hinit : front <+: front') : front = front' := by
  obtain ⟨between, rfl⟩ := hinit
  have hlines := h.line.symm.trans h'.line
  simp only [List.count_append] at hlines
  have hnewline : '\n' ∉ between := List.count_eq_zero.mp (by omega)
  have hcolumns := Option.some.inj (h.column.symm.trans h'.column)
  have hlonger : (front ++ between).rtakeWhile (· ≠ '\n') =
      front.rtakeWhile (· ≠ '\n') ++ between := by
    have hall : ∀ c ∈ between.reverse, (decide (c ≠ '\n')) = true := by
      intro c hc
      exact decide_eq_true (ne_of_mem_of_not_mem (List.mem_reverse.mp hc) hnewline)
    rw [List.rtakeWhile, List.reverse_append, List.takeWhile_append_of_pos hall,
      List.reverse_append, List.reverse_reverse, List.rtakeWhile]
  rw [hlonger, List.length_append] at hcolumns
  have hnothing : between = [] := List.eq_nil_of_length_eq_zero (by omega)
  rw [hnothing, List.append_nil]

/-- A token stands in one place of a source only. -/
theorem Token.StandsIn.unique (h : t.StandsIn source front back)
    (h' : t.StandsIn source front' back') : front = front' := by
  have hfront : front <+: source.toList := by
    rw [h.text, List.append_assoc]
    exact List.prefix_append _ _
  have hfront' : front' <+: source.toList := by
    rw [h'.text, List.append_assoc]
    exact List.prefix_append _ _
  obtain hinit | hinit := List.prefix_or_prefix_of_prefix hfront hfront'
  · exact h.eq_of_prefix h' hinit
  · exact (h'.eq_of_prefix h hinit).symm

end Places

namespace Scan
variable {source : String} {front text : List Char}

theorem nodup_collect (hsource : source.toList = front ++ text) :
    (collect (Position.start.after front) (cuts text)).tokens.dropLast.Nodup := by
  induction text using cuts.induct generalizing front with
  | case1 =>
    rw [cuts]
    exact .nil
  | case2 c rest ih =>
    have hnodup := ih (source_behind_cut hsource)
    have hplaces := collect_pieces (source_behind_cut hsource)
    rw [after_append] at hnodup hplaces
    rw [cuts, collect, Outcome.add]
    cases hpiece : (cut c rest).piece with
    | token kind literal =>
      rw [List.dropLast_cons_of_ne_nil (collect_ne_nil _ _)]
      refine List.nodup_cons.mpr ⟨fun hmem => ?_, hnodup⟩
      -- the same token further on would stand behind its own text
      obtain ⟨k, -, -, before, hinit, hagain⟩ := hplaces _ hmem
      rw [← (standsIn_cut hsource kind literal).unique hagain] at hinit
      have hlength := hinit.length_le
      have htaken := List.length_pos_iff.mpr (@taken_ne_nil c rest)
      rw [List.length_append] at hlength
      omega
    | _ => exact hnodup

theorem getLast_cuts {k : Cut} (hk : k ∈ cuts text) (hrest : k.rest = []) :
    (cuts text).getLast? = some k := by
  induction text using cuts.induct with
  | case1 =>
    rw [cuts] at hk
    cases hk
  | case2 c rest ih =>
    rw [cuts] at hk ⊢
    obtain rfl | hlater := List.mem_cons.mp hk
    · rw [hrest, cuts]
      rfl
    · rw [List.getLast?_cons, ih hlater]
      rfl

theorem unterminated_rest {k : Cut} (hk : k ∈ cuts text) (hpiece : k.piece = .unterminated) :
    k.rest = [] := by
  induction text using cuts.induct with
  | case1 =>
    rw [cuts] at hk
    cases hk
  | case2 c rest ih =>
    rw [cuts] at hk
    obtain rfl | hlater := List.mem_cons.mp hk
    · have hfits := cut_fits c rest
      rw [Cut.Fits, Cut.stretch, hpiece] at hfits
      obtain ⟨-, -, -, hrest⟩ := hfits
      exact hrest
    · exact ih hlater

end Scan

/-- No two words of a source are the same. -/
theorem wordsOf_nodup (source : String) : (wordsOf source).Nodup :=
  Scan.nodup_collect (List.nil_append _).symm

/-- If a word stands at the end of a source, then all pieces of the source end where they do,
whatever separator comes behind it. -/
theorem Token.StandsIn.endsAt {t : Token} {source : String} {front : List Char}
    (hstand : t.StandsIn source front []) (ht : t ∈ wordsOf source) (separator : Char) :
    ∀ k ∈ Scan.cuts source.toList, k.EndsAt separator := by
  obtain ⟨last, hlast, hpiece, front', -, hstand'⟩ :=
    Scan.collect_pieces (List.nil_append source.toList).symm t ht
  have hend : last.rest = [] := by
    have htext := hstand.text.symm.trans hstand'.text
    rw [hstand.unique hstand'] at htext
    exact (List.append_cancel_left htext).symm
  -- what ends the source is the piece of the word
  have hsame : ∀ k ∈ Scan.cuts source.toList, k.rest = [] → k.piece = .token t.kind t.literal := by
    intro k hk hrest
    have hboth := (Scan.getLast_cuts hk hrest).symm.trans (Scan.getLast_cuts hlast hend)
    rw [Option.some.inj hboth, hpiece]
  intro k hk
  constructor
  · intro hopen
    rw [hsame k hk (Scan.unterminated_rest hk hopen)] at hopen
    cases hopen
  · intro hskipped _
    refine .inr fun hrest => ?_
    rw [hsame k hk hrest] at hskipped
    cases hskipped

namespace Grammar

/-! ### Phrases elsewhere -/

section Elsewhere
variable {ts us : List Token}

/-- The token of a second list that stands where a token stands in a first one. -/
def counterpart (ts us : List Token) (t : Token) : Token := us.getD (ts.idxOf t) t

theorem map_counterpart (hts : ts.Nodup) (hlength : us.length = ts.length) :
    ts.map (counterpart ts us) = us := by
  refine List.ext_getElem (by simp [hlength]) fun i hi hi' => ?_
  rw [List.length_map] at hi
  rw [List.getElem_map, counterpart, hts.idxOf_getElem i hi, List.getD_eq_getElem _ _ hi']

theorem bare_counterpart (hsame : us.map Token.bare = ts.map Token.bare) (t : Token) :
    (counterpart ts us t).bare = t.bare := by
  have hlength : us.length = ts.length := by simpa using congrArg List.length hsame
  by_cases ht : t ∈ ts
  · have hindex := List.idxOf_lt_length_of_mem ht
    have hbare := List.getElem_of_eq hsame (i := ts.idxOf t) (by simpa [hlength] using hindex)
    rw [List.getElem_map, List.getElem_map, List.getElem_idxOf] at hbare
    rw [counterpart, List.getD_eq_getElem _ _ (hlength ▸ hindex), hbare]
  · rw [counterpart, List.getD_eq_default _ _ (by rw [List.idxOf_eq_length ht, hlength])]

/-- An expression is derived from the same tokens elsewhere, in front of any others, and has the
same tree but for the places in it. -/
theorem Derives.elsewhere {l : Tier} {e : RawExpr} (h : Derives (.expr l) ts e [])
    (hts : ts.Nodup) (hsame : us.map Token.bare = ts.map Token.bare) (more : List Token) :
    ∃ e', Derives (.expr l) (us ++ more) e' more ∧
      e'.map Token.bare id = e.map Token.bare id := by
  have hlength : us.length = ts.length := by simpa using congrArg List.length hsame
  have hbare := bare_counterpart hsame
  have hkeeps : Keeps (counterpart ts us) :=
    ⟨fun t => (Token.mk.inj (hbare t)).1, fun t => (Token.mk.inj (hbare t)).2.2.1⟩
  have hmoved := h.map_append hkeeps more
  rw [map_counterpart hts hlength] at hmoved
  refine ⟨e.map (counterpart ts us) id, hmoved, ?_⟩
  rw [Expr.map_map]
  congr 1
  exact funext hbare

end Elsewhere

/-- The symbols whose phrases are closed by a token of their own. -/
def Symbol.isClosed : Symbol → Bool
  | .expr _ | .block | .routine => true
  | _ => false

/-- The kinds of the tokens that can close an expression. -/
def closings : List Kind :=
  [.kwTrue, .kwFalse, .kwNil, .number, .string, .kwThis, .identifier, .rightParen, .rightBrace]

/-- Tokens in front of a rest end with one that can close an expression. -/
def Closed (ts rest : List Token) : Prop := ∃ t, t :: rest <:+ ts ∧ t.kind ∈ closings

namespace Closed
variable {ts us rest : List Token} {t : Token}

theorem of_kind {kind : Kind} (ht : t.kind = kind) (hkind : kind ∈ closings)
    (h : t :: rest <:+ ts) : Closed ts rest :=
  ⟨t, h, ht ▸ hkind⟩

theorem behind (h : Closed us rest) (hsuffix : us <:+ ts) : Closed ts rest := by
  obtain ⟨t, ht, hkind⟩ := h
  exact ⟨t, ht.trans hsuffix, hkind⟩

theorem cons (h : Closed ts rest) : Closed (t :: ts) rest := h.behind (List.suffix_cons _ _)

end Closed

theorem constant?_closes {t : Token} {value : Literal} (h : constant? t = some value) :
    t.kind ∈ closings := by
  unfold constant? at h
  split at h <;> simp_all [closings]

/-- An expression ends with a token that can close it, and so does a function body. -/
theorem Derives.closed {s : Symbol} {ts rest : List Token} {tree : s.Tree}
    (h : Derives s ts tree rest) : s.isClosed → Closed ts rest := by
  -- The last part of a phrase stands in what the parts in front of it leave, which is a suffix.
  induction h with
  | pass _ _ ih => exact ih
  | chain first _ _ _ ih => exact fun _ => (ih rfl).cons.behind first.suffix
  | assignName _ _ _ ih => exact fun _ => (ih rfl).cons.cons
  | assignField target _ _ _ _ _ ih => exact fun _ => (ih rfl).cons.cons.cons.behind target.suffix
  | unary _ _ ih => exact fun _ => (ih rfl).cons
  | call called _ given closes =>
    exact fun _ => .of_kind closes (by decide)
      (given.suffix.trans ((List.suffix_cons _ _).trans called.suffix))
  | get owner _ named =>
    exact fun _ => .of_kind named (by decide) ((List.suffix_cons _ _).trans owner.suffix)
  | constant hconstant => exact fun _ => ⟨_, List.suffix_refl _, constant?_closes hconstant⟩
  | this keyword => exact fun _ => .of_kind keyword (by decide) (List.suffix_refl _)
  | name named => exact fun _ => .of_kind named (by decide) (List.suffix_refl _)
  | grouping _ inner closes =>
    exact fun _ => .of_kind closes (by decide) (inner.suffix.trans (List.suffix_cons _ _))
  | function _ _ ih => exact fun _ => (ih rfl).cons
  | namedFunction _ _ _ ih => exact fun _ => (ih rfl).cons.cons
  | block _ inner closes =>
    exact fun _ => .of_kind closes (by decide) (inner.suffix.trans (List.suffix_cons _ _))
  | routine _ given _ _ _ ih => exact fun _ => ((ih rfl).cons.behind given.suffix).cons
  | _ => exact nofun

end Grammar

end LoxScript
