import LoxScript.Proofs.Sightings

/-!
Trees under a change of their tokens and marks, and what holds of all tokens of a tree.
-/
namespace LoxScript

section Map
variable {ρ τ : Type} (σ : Token → Token) (g : ρ → τ)

mutual

def Expr.map : Expr ρ → Expr τ
  | .literal value => .literal value
  | .grouping e => .grouping e.map
  | .unary t e => .unary (σ t) e.map
  | .binary a t b => .binary a.map (σ t) b.map
  | .logical a t b => .logical a.map (σ t) b.map
  | .variable t mark => .variable (σ t) (g mark)
  | .assign t operator e mark => .assign (σ t) (operator.map σ) e.map (g mark)
  | .call f t es => .call f.map (σ t) (Expr.mapAll es)
  | .get o t => .get o.map (σ t)
  | .set o t operator e => .set o.map (σ t) (operator.map σ) e.map
  | .this t mark => .this (σ t) (g mark)
  | .function name params body => .function (name.map σ) (params.map σ) (Stmt.mapAll body)

def Expr.mapAll : List (Expr ρ) → List (Expr τ)
  | [] => []
  | e :: es => e.map :: Expr.mapAll es

def Stmt.map : Stmt ρ → Stmt τ
  | .expression e => .expression e.map
  | .print e => .print e.map
  | .varDecl t none => .varDecl (σ t) none
  | .varDecl t (some e) => .varDecl (σ t) (some e.map)
  | .block body => .block (Stmt.mapAll body)
  | .ifElse c yes none => .ifElse c.map yes.map none
  | .ifElse c yes (some no) => .ifElse c.map yes.map (some no.map)
  | .loop c body none => .loop c.map body.map none
  | .loop c body (some n) => .loop c.map body.map (some n.map)
  | .breakLoop t => .breakLoop (σ t)
  | .continueLoop t => .continueLoop (σ t)
  | .returnFrom t none => .returnFrom (σ t) none
  | .returnFrom t (some e) => .returnFrom (σ t) (some e.map)
  | .functionDecl t params body => .functionDecl (σ t) (params.map σ) (Stmt.mapAll body)
  | .classDecl t methods => .classDecl (σ t) (Method.mapAll methods)

def Stmt.mapAll : List (Stmt ρ) → List (Stmt τ)
  | [] => []
  | s :: ss => s.map :: Stmt.mapAll ss

def Method.mapAll : List (Method ρ) → List (Method τ)
  | [] => []
  | .mk t params body :: ms => .mk (σ t) (params.map σ) (Stmt.mapAll body) :: Method.mapAll ms

end
end Map

attribute [simp] Expr.map Expr.mapAll Stmt.map Stmt.mapAll Method.mapAll

mutual

theorem Expr.map_id {ρ : Type} : (e : Expr ρ) → e.map id id = e
  | .literal _ => rfl
  | .grouping e => by simp [e.map_id]
  | .unary _ e => by simp [e.map_id]
  | .binary a _ b => by simp [a.map_id, b.map_id]
  | .logical a _ b => by simp [a.map_id, b.map_id]
  | .variable _ _ => rfl
  | .assign _ _ e _ => by simp [e.map_id]
  | .call f _ es => by simp [f.map_id, Expr.mapAll_id es]
  | .get o _ => by simp [o.map_id]
  | .set o _ _ e => by simp [o.map_id, e.map_id]
  | .this _ _ => rfl
  | .function _ _ body => by simp [Stmt.mapAll_id body]

theorem Expr.mapAll_id {ρ : Type} : (es : List (Expr ρ)) → Expr.mapAll id id es = es
  | [] => rfl
  | e :: es => by simp [e.map_id, Expr.mapAll_id es]

theorem Stmt.map_id {ρ : Type} : (s : Stmt ρ) → s.map id id = s
  | .expression e => by simp [e.map_id]
  | .print e => by simp [e.map_id]
  | .varDecl _ none => rfl
  | .varDecl _ (some e) => by simp [e.map_id]
  | .block body => by simp [Stmt.mapAll_id body]
  | .ifElse c yes none => by simp [c.map_id, yes.map_id]
  | .ifElse c yes (some no) => by simp [c.map_id, yes.map_id, no.map_id]
  | .loop c body none => by simp [c.map_id, body.map_id]
  | .loop c body (some n) => by simp [c.map_id, body.map_id, n.map_id]
  | .breakLoop _ => rfl
  | .continueLoop _ => rfl
  | .returnFrom _ none => rfl
  | .returnFrom _ (some e) => by simp [e.map_id]
  | .functionDecl _ _ body => by simp [Stmt.mapAll_id body]
  | .classDecl _ ms => by simp [Method.mapAll_id ms]

theorem Stmt.mapAll_id {ρ : Type} : (ss : List (Stmt ρ)) → Stmt.mapAll id id ss = ss
  | [] => rfl
  | s :: ss => by simp [s.map_id, Stmt.mapAll_id ss]

theorem Method.mapAll_id {ρ : Type} : (ms : List (Method ρ)) → Method.mapAll id id ms = ms
  | [] => rfl
  | .mk _ _ body :: ms => by simp [Stmt.mapAll_id body, Method.mapAll_id ms]

end

section Comp
variable {ρ τ υ : Type} (σ σ' : Token → Token) (g : ρ → τ) (g' : τ → υ)

mutual

theorem Expr.map_map : (e : Expr ρ) → (e.map σ g).map σ' g' = e.map (σ' ∘ σ) (g' ∘ g)
  | .literal _ => rfl
  | .grouping e => by simp [e.map_map]
  | .unary _ e => by simp [e.map_map]
  | .binary a _ b => by simp [a.map_map, b.map_map]
  | .logical a _ b => by simp [a.map_map, b.map_map]
  | .variable _ _ => rfl
  | .assign _ _ e _ => by simp [e.map_map]
  | .call f _ es => by simp [f.map_map, Expr.mapAll_mapAll es]
  | .get o _ => by simp [o.map_map]
  | .set o _ _ e => by simp [o.map_map, e.map_map]
  | .this _ _ => rfl
  | .function _ _ body => by simp [Stmt.mapAll_mapAll body]

theorem Expr.mapAll_mapAll : (es : List (Expr ρ)) →
    Expr.mapAll σ' g' (Expr.mapAll σ g es) = Expr.mapAll (σ' ∘ σ) (g' ∘ g) es
  | [] => rfl
  | e :: es => by simp [e.map_map, Expr.mapAll_mapAll es]

theorem Stmt.map_map : (s : Stmt ρ) → (s.map σ g).map σ' g' = s.map (σ' ∘ σ) (g' ∘ g)
  | .expression e => by simp [e.map_map]
  | .print e => by simp [e.map_map]
  | .varDecl _ none => rfl
  | .varDecl _ (some e) => by simp [e.map_map]
  | .block body => by simp [Stmt.mapAll_mapAll body]
  | .ifElse c yes none => by simp [c.map_map, yes.map_map]
  | .ifElse c yes (some no) => by simp [c.map_map, yes.map_map, no.map_map]
  | .loop c body none => by simp [c.map_map, body.map_map]
  | .loop c body (some n) => by simp [c.map_map, body.map_map, n.map_map]
  | .breakLoop _ => rfl
  | .continueLoop _ => rfl
  | .returnFrom _ none => rfl
  | .returnFrom _ (some e) => by simp [e.map_map]
  | .functionDecl _ _ body => by simp [Stmt.mapAll_mapAll body]
  | .classDecl _ ms => by simp [Method.mapAll_mapAll ms]

theorem Stmt.mapAll_mapAll : (ss : List (Stmt ρ)) →
    Stmt.mapAll σ' g' (Stmt.mapAll σ g ss) = Stmt.mapAll (σ' ∘ σ) (g' ∘ g) ss
  | [] => rfl
  | s :: ss => by simp [s.map_map, Stmt.mapAll_mapAll ss]

theorem Method.mapAll_mapAll : (ms : List (Method ρ)) →
    Method.mapAll σ' g' (Method.mapAll σ g ms) = Method.mapAll (σ' ∘ σ) (g' ∘ g) ms
  | [] => rfl
  | .mk _ _ body :: ms => by simp [Stmt.mapAll_mapAll body, Method.mapAll_mapAll ms]

end
end Comp

section Words
variable {ρ : Type} (P N : Token → Prop)

mutual

/-- All tokens of a tree are as `P` says, and those that name something that is declared are as `N`
says as well. -/
def Expr.Words : Expr ρ → Prop
  | .literal _ => True
  | .grouping e => e.Words
  | .unary t e => P t ∧ e.Words
  | .binary a t b => a.Words ∧ P t ∧ b.Words
  | .logical a t b => a.Words ∧ P t ∧ b.Words
  | .variable t _ => P t
  | .assign t operator e _ => P t ∧ (∀ s ∈ operator, P s) ∧ e.Words
  | .call f t es => f.Words ∧ P t ∧ Expr.AllWords es
  | .get o t => o.Words ∧ P t
  | .set o t operator e => o.Words ∧ P t ∧ (∀ s ∈ operator, P s) ∧ e.Words
  | .this t _ => P t
  | .function name params body =>
    (∀ t ∈ name, P t ∧ N t) ∧ (∀ t ∈ params, P t ∧ N t) ∧ Stmt.AllWords body

def Expr.AllWords : List (Expr ρ) → Prop
  | [] => True
  | e :: es => e.Words ∧ Expr.AllWords es

def Stmt.Words : Stmt ρ → Prop
  | .expression e => e.Words
  | .print e => e.Words
  | .varDecl t none => P t ∧ N t
  | .varDecl t (some e) => (P t ∧ N t) ∧ e.Words
  | .block body => Stmt.AllWords body
  | .ifElse c yes none => c.Words ∧ yes.Words
  | .ifElse c yes (some no) => c.Words ∧ yes.Words ∧ no.Words
  | .loop c body none => c.Words ∧ body.Words
  | .loop c body (some n) => c.Words ∧ body.Words ∧ n.Words
  | .breakLoop t => P t
  | .continueLoop t => P t
  | .returnFrom t none => P t
  | .returnFrom t (some e) => P t ∧ e.Words
  | .functionDecl t params body =>
    (P t ∧ N t) ∧ (∀ t ∈ params, P t ∧ N t) ∧ Stmt.AllWords body
  | .classDecl t methods => (P t ∧ N t) ∧ Method.AllWords methods

def Stmt.AllWords : List (Stmt ρ) → Prop
  | [] => True
  | s :: ss => s.Words ∧ Stmt.AllWords ss

def Method.AllWords : List (Method ρ) → Prop
  | [] => True
  | .mk t params body :: ms =>
    ((P t ∧ N t) ∧ (∀ t ∈ params, P t ∧ N t) ∧ Stmt.AllWords body) ∧ Method.AllWords ms

end
end Words

attribute [simp] Expr.Words Expr.AllWords Stmt.Words Stmt.AllWords Method.AllWords

section Change
variable {ρ τ : Type} {P N : Token → Prop} {σ : Token → Token} {g : ρ → τ}

mutual

theorem Expr.words_map : (e : Expr ρ) →
    ((e.map σ g).Words P N ↔ e.Words (fun t => P (σ t)) (fun t => N (σ t)))
  | .literal _ => .rfl
  | .grouping e => by simp [e.words_map]
  | .unary _ e => by simp [e.words_map]
  | .binary a _ b => by simp [a.words_map, b.words_map]
  | .logical a _ b => by simp [a.words_map, b.words_map]
  | .variable _ _ => .rfl
  | .assign _ _ e _ => by simp [e.words_map]
  | .call f _ es => by simp [f.words_map, Expr.allWords_map es]
  | .get o _ => by simp [o.words_map]
  | .set o _ _ e => by simp [o.words_map, e.words_map]
  | .this _ _ => .rfl
  | .function _ _ body => by simp [Stmt.allWords_map body]

theorem Expr.allWords_map : (es : List (Expr ρ)) →
    (Expr.AllWords P N (Expr.mapAll σ g es) ↔
      Expr.AllWords (fun t => P (σ t)) (fun t => N (σ t)) es)
  | [] => .rfl
  | e :: es => by simp [e.words_map, Expr.allWords_map es]

theorem Stmt.words_map : (s : Stmt ρ) →
    ((s.map σ g).Words P N ↔ s.Words (fun t => P (σ t)) (fun t => N (σ t)))
  | .expression e => by simp [e.words_map]
  | .print e => by simp [e.words_map]
  | .varDecl _ none => .rfl
  | .varDecl _ (some e) => by simp [e.words_map]
  | .block body => by simp [Stmt.allWords_map body]
  | .ifElse c yes none => by simp [c.words_map, yes.words_map]
  | .ifElse c yes (some no) => by simp [c.words_map, yes.words_map, no.words_map]
  | .loop c body none => by simp [c.words_map, body.words_map]
  | .loop c body (some n) => by simp [c.words_map, body.words_map, n.words_map]
  | .breakLoop _ => .rfl
  | .continueLoop _ => .rfl
  | .returnFrom _ none => .rfl
  | .returnFrom _ (some e) => by simp [e.words_map]
  | .functionDecl _ _ body => by simp [Stmt.allWords_map body]
  | .classDecl _ ms => by simp [Method.allWords_map ms]

theorem Stmt.allWords_map : (ss : List (Stmt ρ)) →
    (Stmt.AllWords P N (Stmt.mapAll σ g ss) ↔
      Stmt.AllWords (fun t => P (σ t)) (fun t => N (σ t)) ss)
  | [] => .rfl
  | s :: ss => by simp [s.words_map, Stmt.allWords_map ss]

theorem Method.allWords_map : (ms : List (Method ρ)) →
    (Method.AllWords P N (Method.mapAll σ g ms) ↔
      Method.AllWords (fun t => P (σ t)) (fun t => N (σ t)) ms)
  | [] => .rfl
  | .mk _ _ body :: ms => by simp [Stmt.allWords_map body, Method.allWords_map ms]

end
end Change

section Tokens
variable {ρ : Type}

mutual

/-- The tokens of a tree. -/
def Expr.tokens : Expr ρ → List Token
  | .literal _ => []
  | .grouping e => e.tokens
  | .unary t e => t :: e.tokens
  | .binary a t b => t :: (a.tokens ++ b.tokens)
  | .logical a t b => t :: (a.tokens ++ b.tokens)
  | .variable t _ => [t]
  | .assign t operator e _ => t :: (operator.toList ++ e.tokens)
  | .call f t es => t :: (f.tokens ++ Expr.tokensAll es)
  | .get o t => t :: o.tokens
  | .set o t operator e => t :: (operator.toList ++ (o.tokens ++ e.tokens))
  | .this t _ => [t]
  | .function name params body => name.toList ++ (params ++ Stmt.tokensAll body)

def Expr.tokensAll : List (Expr ρ) → List Token
  | [] => []
  | e :: es => e.tokens ++ Expr.tokensAll es

def Stmt.tokens : Stmt ρ → List Token
  | .expression e => e.tokens
  | .print e => e.tokens
  | .varDecl t none => [t]
  | .varDecl t (some e) => t :: e.tokens
  | .block body => Stmt.tokensAll body
  | .ifElse c yes none => c.tokens ++ yes.tokens
  | .ifElse c yes (some no) => c.tokens ++ (yes.tokens ++ no.tokens)
  | .loop c body none => c.tokens ++ body.tokens
  | .loop c body (some n) => c.tokens ++ (body.tokens ++ n.tokens)
  | .breakLoop t => [t]
  | .continueLoop t => [t]
  | .returnFrom t none => [t]
  | .returnFrom t (some e) => t :: e.tokens
  | .functionDecl t params body => t :: (params ++ Stmt.tokensAll body)
  | .classDecl t methods => t :: Method.tokensAll methods

def Stmt.tokensAll : List (Stmt ρ) → List Token
  | [] => []
  | s :: ss => s.tokens ++ Stmt.tokensAll ss

def Method.tokensAll : List (Method ρ) → List Token
  | [] => []
  | .mk t params body :: ms => t :: (params ++ (Stmt.tokensAll body ++ Method.tokensAll ms))

end

variable {P : Token → Prop}

mutual

theorem Expr.words_of_tokens : (e : Expr ρ) → (∀ t ∈ e.tokens, P t) → e.Words P fun _ => True
  | .literal _, _ => trivial
  | .grouping e, h => e.words_of_tokens h
  | .unary _ e, h => by simp_all [Expr.tokens, e.words_of_tokens]
  | .binary a _ b, h => by simp_all [Expr.tokens, a.words_of_tokens, b.words_of_tokens]
  | .logical a _ b, h => by simp_all [Expr.tokens, a.words_of_tokens, b.words_of_tokens]
  | .variable _ _, h => by simp_all [Expr.tokens]
  | .assign _ operator e _, h => by
    cases operator <;> simp_all [Expr.tokens, e.words_of_tokens]
  | .call f _ es, h => by simp_all [Expr.tokens, f.words_of_tokens, Expr.allWords_of_tokens es]
  | .get o _, h => by simp_all [Expr.tokens, o.words_of_tokens]
  | .set o _ operator e, h => by
    cases operator <;> simp_all [Expr.tokens, o.words_of_tokens, e.words_of_tokens]
  | .this _ _, h => by simp_all [Expr.tokens]
  | .function name _ body, h => by
    cases name <;> simp_all [Expr.tokens, Stmt.allWords_of_tokens body]

theorem Expr.allWords_of_tokens : (es : List (Expr ρ)) → (∀ t ∈ Expr.tokensAll es, P t) →
    Expr.AllWords P (fun _ => True) es
  | [], _ => trivial
  | e :: es, h => by simp_all [Expr.tokensAll, e.words_of_tokens, Expr.allWords_of_tokens es]

theorem Stmt.words_of_tokens : (s : Stmt ρ) → (∀ t ∈ s.tokens, P t) → s.Words P fun _ => True
  | .expression e, h => e.words_of_tokens h
  | .print e, h => e.words_of_tokens h
  | .varDecl _ none, h => by simp_all [Stmt.tokens]
  | .varDecl _ (some e), h => by simp_all [Stmt.tokens, e.words_of_tokens]
  | .block body, h => Stmt.allWords_of_tokens body h
  | .ifElse c yes none, h => by simp_all [Stmt.tokens, c.words_of_tokens, yes.words_of_tokens]
  | .ifElse c yes (some no), h => by
    simp_all [Stmt.tokens, c.words_of_tokens, yes.words_of_tokens, no.words_of_tokens]
  | .loop c body none, h => by simp_all [Stmt.tokens, c.words_of_tokens, body.words_of_tokens]
  | .loop c body (some n), h => by
    simp_all [Stmt.tokens, c.words_of_tokens, body.words_of_tokens, n.words_of_tokens]
  | .breakLoop _, h => by simp_all [Stmt.tokens]
  | .continueLoop _, h => by simp_all [Stmt.tokens]
  | .returnFrom _ none, h => by simp_all [Stmt.tokens]
  | .returnFrom _ (some e), h => by simp_all [Stmt.tokens, e.words_of_tokens]
  | .functionDecl _ _ body, h => by simp_all [Stmt.tokens, Stmt.allWords_of_tokens body]
  | .classDecl _ ms, h => by simp_all [Stmt.tokens, Method.allWords_of_tokens ms]

theorem Stmt.allWords_of_tokens : (ss : List (Stmt ρ)) → (∀ t ∈ Stmt.tokensAll ss, P t) →
    Stmt.AllWords P (fun _ => True) ss
  | [], _ => trivial
  | s :: ss, h => by simp_all [Stmt.tokensAll, s.words_of_tokens, Stmt.allWords_of_tokens ss]

theorem Method.allWords_of_tokens : (ms : List (Method ρ)) → (∀ t ∈ Method.tokensAll ms, P t) →
    Method.AllWords P (fun _ => True) ms
  | [], _ => trivial
  | .mk _ _ body :: ms, h => by
    simp_all [Method.tokensAll, Stmt.allWords_of_tokens body, Method.allWords_of_tokens ms]

end
end Tokens

open Resolve Scope

/-- Trees as they were before they were resolved. -/
abbrev Expr.raw (e : ResolvedExpr) : RawExpr := e.map id fun _ => ()

abbrev Expr.rawAll (es : List ResolvedExpr) : List RawExpr := Expr.mapAll id (fun _ => ()) es

abbrev Stmt.raw (s : ResolvedStmt) : RawStmt := s.map id fun _ => ()

abbrev Stmt.rawAll (ss : List ResolvedStmt) : List RawStmt := Stmt.mapAll id (fun _ => ()) ss

abbrev Method.rawAll (ms : List ResolvedMethod) : List RawMethod := Method.mapAll id (fun _ => ()) ms

mutual

theorem Expr.raw_resolve : (e : RawExpr) → (w : Walk) → (e.resolve w).1.raw = e
  | .literal _, _ => rfl
  | .grouping e, w => congrArg Expr.grouping (e.raw_resolve w)
  | .unary _ e, w => congrArg (Expr.unary _) (e.raw_resolve w)
  | .binary a _ b, w => congrArg₂ (Expr.binary · _ ·) (a.raw_resolve w) (b.raw_resolve _)
  | .logical a _ b, w => congrArg₂ (Expr.logical · _ ·) (a.raw_resolve w) (b.raw_resolve _)
  | .variable t mark, w => by rw [(Expr.resolve_variable t mark w).1]; rfl
  | .assign t operator e _, w => by
    have hvalue := e.raw_resolve w
    cases operator <;> exact congrArg (Expr.assign t _ · ()) hvalue
  | .call f t es, w => congrArg₂ (Expr.call · t ·) (f.raw_resolve w) (Expr.rawAll_resolve es _)
  | .get o t, w => congrArg (Expr.get · t) (o.raw_resolve w)
  | .set o t operator e, w => by
    have hvalue := e.raw_resolve w
    have hobject := o.raw_resolve (e.resolve w).2
    cases operator <;> exact congrArg₂ (Expr.set · t _ ·) hobject hvalue
  | .this t mark, w => by rw [(Expr.resolve_this t mark w).1]; rfl
  | .function none params body, w => by
    have hbody := Stmt.rawAll_resolve body
    exact (congrArg (Expr.function none _) (hbody _)).trans (by rw [List.map_id])
  | .function (some t) params body, w => by
    have hbody := Stmt.rawAll_resolve body
    exact (congrArg (Expr.function (some t) _) (hbody _)).trans (by rw [List.map_id])

theorem Expr.rawAll_resolve : (es : List RawExpr) → (w : Walk) →
    Expr.rawAll (Expr.resolveAll es w).1 = es
  | [], _ => rfl
  | e :: es, w => congrArg₂ List.cons (e.raw_resolve w) (Expr.rawAll_resolve es _)

theorem Stmt.raw_resolve : (s : RawStmt) → (w : Walk) → (s.resolve w).1.raw = s
  | .expression e, w => congrArg Stmt.expression (e.raw_resolve w)
  | .print e, w => congrArg Stmt.print (e.raw_resolve w)
  | .varDecl _ none, _ => rfl
  | .varDecl t (some e), w => congrArg (fun e => Stmt.varDecl t (some e)) (e.raw_resolve _)
  | .block body, w => congrArg Stmt.block (Stmt.rawAll_resolve body _)
  | .ifElse c yes none, w =>
    congrArg₂ (Stmt.ifElse · · none) (c.raw_resolve w) (yes.raw_resolve _)
  | .ifElse c yes (some no), w => by
    have hyes := yes.raw_resolve (c.resolve w).2
    have hno := no.raw_resolve (yes.resolve (c.resolve w).2).2
    exact (congrArg₂ (Stmt.ifElse · · _) (c.raw_resolve w) hyes).trans
      (congrArg (fun no => Stmt.ifElse c yes (some no)) hno)
  | .loop c body none, w => congrArg₂ (Stmt.loop · · none) (c.raw_resolve w) (body.raw_resolve _)
  | .loop c body (some n), w => by
    have hbody := body.raw_resolve { (c.resolve w).2 with loops := (c.resolve w).2.loops + 1 }
    have hstep := n.raw_resolve (inLoop body.resolve (c.resolve w).2).2
    exact (congrArg₂ (Stmt.loop · · _) (c.raw_resolve w) hbody).trans
      (congrArg (fun n => Stmt.loop c body (some n)) hstep)
  | .breakLoop t, w => by rw [Stmt.resolve_breakLoop]; rfl
  | .continueLoop t, w => by rw [Stmt.resolve_continueLoop]; rfl
  | .returnFrom t none, w => by rw [Stmt.resolve_returnNothing]; rfl
  | .returnFrom t (some e), w => by
    obtain ⟨w', h⟩ := Stmt.resolve_returnValue t e w
    rw [h]
    exact congrArg (fun e => Stmt.returnFrom t (some e)) (e.raw_resolve w')
  | .functionDecl t params body, w => by
    have hbody := Stmt.rawAll_resolve body
    exact (congrArg (Stmt.functionDecl t _) (hbody _)).trans (by rw [List.map_id])
  | .classDecl t methods, w => congrArg (Stmt.classDecl t) (Method.rawAll_resolve methods _)

theorem Stmt.rawAll_resolve : (ss : List RawStmt) → (w : Walk) →
    Stmt.rawAll (Stmt.resolveAll ss w).1 = ss
  | [], _ => rfl
  | s :: ss, w => congrArg₂ List.cons (s.raw_resolve w) (Stmt.rawAll_resolve ss _)

theorem Method.rawAll_resolve : (ms : List RawMethod) → (w : Walk) →
    Method.rawAll (Method.resolveAll ms w).1 = ms
  | [], _ => rfl
  | .mk t params body :: ms, w => by
    have hbody := Stmt.rawAll_resolve body
    have hparams : params.map id = params := List.map_id params
    exact congrArg₂ List.cons (congrArg₂ (Method.mk t) hparams (hbody _))
      (Method.rawAll_resolve ms _)

end

end LoxScript
