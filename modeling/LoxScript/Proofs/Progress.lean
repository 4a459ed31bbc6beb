import LoxScript.Proofs.Recorded

/-!
Parsing comes to an end on any tokens.

What is left only ever gets shorter, each declaration takes a token whether it is read or left out,
and whatever gives up has a fault of its own. So the sequence of declarations at the top reaches the
end of the tokens, and for every declaration that is left out there is a fault.
-/
namespace LoxScript

namespace Parse

/-- Every place is at or behind the one before it. -/
def Descends : List Token → List (List Token) → List Token → Prop
  | ts, [], rest => rest <:+ ts
  | ts, place :: places, rest => place <:+ ts ∧ Descends place places rest

namespace Descends
variable {ts mid rest : List Token} {places others : List (List Token)}

theorem of_suffix (hmid : mid <:+ ts) (h : Descends mid places rest) : Descends ts places rest := by
  cases places with
  | nil => exact List.IsSuffix.trans h hmid
  | cons place places => exact ⟨h.1.trans hmid, h.2⟩

theorem append (h : Descends ts places mid) (hothers : Descends mid others rest) :
    Descends ts (places ++ others) rest := by
  induction places generalizing ts with
  | nil => exact of_suffix h hothers
  | cons place places ih => exact ⟨h.1, ih h.2⟩

theorem suffix (h : Descends ts places rest) : rest <:+ ts := by
  induction places generalizing ts with
  | nil => exact h
  | cons place places ih => exact (ih h.2).trans h.1

/-- The number of tokens behind which a place stands never gets smaller. -/
theorem positions (h : Descends ts places rest) :
    (∀ place ∈ places, place <:+ ts) ∧ places.Pairwise fun a b => b <:+ a := by
  induction places generalizing ts with
  | nil => exact ⟨List.forall_mem_nil _, .nil⟩
  | cons place places ih =>
    obtain ⟨hmem, hpairs⟩ := ih h.2
    refine ⟨List.forall_mem_cons.mpr ⟨h.1, fun p hp => (hmem p hp).trans h.1⟩, ?_⟩
    exact List.pairwise_cons.mpr ⟨hmem, hpairs⟩

end Descends

/-- A call is made in front of a token, answers, and takes at least that token. If it leaves the
declaration out then it has found a fault. -/
structure Call.Advances (c : Call) : Prop where
  notAtEnd : c.tokens ≠ []
  answered : c.reply.value.isSome
  suffix : c.reply.rest <:+ c.tokens
  shorter : c.reply.rest.length < c.tokens.length
  reported : c.statement? = none → c.reply.faults ≠ []

/-- A sweep over some of the tokens: the statements are those of its calls, and the faults of
each call are among those that are reported. -/
structure Sweep.Sound (ts : List Token) (faults : List Fault) (s : Sweep) : Prop where
  kept : s.reply.value = some (s.calls.filterMap Call.statement?)
  calls : ∀ c ∈ s.calls, c.Advances ∧ c.tokens <:+ ts ∧ c.reply.faults <:+: faults

theorem Sweep.Sound.mono {ts mid : List Token} {faults more : List Fault} {s : Sweep}
    (h : s.Sound mid faults) (hmid : mid <:+ ts) (hfaults : faults <:+: more) : s.Sound ts more where
  kept := h.kept
  calls c hc :=
    have hcall := h.calls c hc
    ⟨hcall.1, hcall.2.1.trans hmid, hcall.2.2.trans hfaults⟩

theorem Record.leftOut_append (r s : Record) : (r.append s).leftOut = r.leftOut + s.leftOut := by
  simp [Record.leftOut, Record.append]

end Parse

open Parse (Call Sweep Record Fault Cause Descends)

namespace Recorded

section
variable {α β : Type} {p : Recorded α} {f : α → Recorded β} {ts : List Token}

theorem bind_of_none (h : (p.run ts).value = none) :
    (p >>= f).run ts = ⟨none, (p.run ts).rest, (p.run ts).faults⟩ ∧
      (p >>= f).record ts = p.record ts := by
  have hrun : (p >>= f).run ts = Parser.andThen p.run (fun a => (f a).run) ts := rfl
  rw [hrun, Parser.andThen]
  cases hp : p.run ts with
  | mk value rest faults =>
    rw [hp] at h
    cases h
    refine ⟨rfl, ?_⟩
    simp only [Bind.bind, andThen, hp]

theorem bind_of_some {a : α} (h : (p.run ts).value = some a) :
    (p >>= f).run ts = ⟨((f a).run (p.run ts).rest).value, ((f a).run (p.run ts).rest).rest,
        (p.run ts).faults ++ ((f a).run (p.run ts).rest).faults⟩ ∧
      (p >>= f).record ts = (p.record ts).append ((f a).record (p.run ts).rest) := by
  have hrun : (p >>= f).run ts = Parser.andThen p.run (fun a => (f a).run) ts := rfl
  rw [hrun, Parser.andThen]
  cases hp : p.run ts with
  | mk value rest faults =>
    rw [hp] at h
    cases h
    refine ⟨rfl, ?_⟩
    simp only [Bind.bind, andThen, hp]

end

/-- How a recorded parser reads some tokens: what is left only gets shorter, by at least `taken`
tokens if it succeeds, every declaration that is left out has a fault and giving up has a further
one, and its sweeps are sound. -/
structure Follows {α : Type} (ts : List Token) (taken : Nat) (p : Recorded α) : Prop where
  descends : Descends ts (p.record ts).places (p.run ts).rest
  taken : (p.run ts).value.isSome → (p.run ts).rest.length + taken ≤ ts.length
  owned : (p.record ts).leftOut + (if (p.run ts).value.isNone then 1 else 0) ≤
    (p.run ts).faults.length
  sweeps : ∀ s ∈ (p.record ts).sweeps, s.Sound ts (p.run ts).faults

namespace Follows
variable {α β : Type} {ts : List Token} {n m : Nat} {p : Recorded α}

theorem imp (h : Follows ts n p) (hm : m ≤ n) : Follows ts m p where
  descends := h.descends
  taken hsome := Nat.le_trans (Nat.add_le_add_left hm _) (h.taken hsome)
  owned := h.owned
  sweeps := h.sweeps

theorem congr {q : Recorded α} (hrun : p.run ts = q.run ts) (hrecord : p.record ts = q.record ts)
    (h : Follows ts n q) : Follows ts n p where
  descends := hrun ▸ hrecord ▸ h.descends
  taken := hrun ▸ h.taken
  owned := hrun ▸ hrecord ▸ h.owned
  sweeps := hrun ▸ hrecord ▸ h.sweeps

theorem done {a : α} : Follows ts 0 (done a) where
  descends := List.suffix_refl ts
  taken _ := Nat.le_refl _
  owned := Nat.le_refl _
  sweeps := List.forall_mem_nil _

/-- A parser without parts that has a fault if it gives up. -/
theorem single {p : Parser α} (hleft : (p ts).rest <:+ ts)
    (htaken : (p ts).value.isSome → (p ts).rest.length + n ≤ ts.length)
    (hfaulty : (p ts).value = none → (p ts).faults ≠ []) : Follows ts n (single p) where
  descends := ⟨List.suffix_refl ts, hleft, List.suffix_refl _⟩
  taken := htaken
  owned := by
    change 0 + (if (p ts).value.isNone then 1 else 0) ≤ (p ts).faults.length
    cases hvalue : (p ts).value with
    | none => exact List.length_pos_iff.mpr (hfaulty hvalue)
    | some a => exact Nat.zero_le _
  sweeps := List.forall_mem_nil _

theorem fail {cause : Cause} : Follows ts n (fail cause : Recorded α) :=
  single (List.suffix_refl ts) (fun h => by cases h) fun _ => List.cons_ne_nil _ _

theorem noteAt {token : Option Token} {cause : Cause} : Follows ts 0 (noteAt token cause) :=
  single (List.suffix_refl ts) (fun _ => Nat.le_refl _) fun h => by cases h

theorem note {cause : Cause} : Follows ts 0 (note cause) :=
  single (List.suffix_refl ts) (fun _ => Nat.le_refl _) fun h => by cases h

theorem check {kind : Kind} : Follows ts 0 (check kind) :=
  single (List.suffix_refl ts) (fun _ => Nat.le_refl _) fun h => by cases h

theorem expect {kind : Kind} {what : String} : Follows ts 1 (expect kind what) := by
  cases ts with
  | nil => exact single (List.suffix_refl _) (fun h => by cases h) fun _ => List.cons_ne_nil _ _
  | cons t ts =>
    by_cases h : t.kind = kind
    · have hrun : Parser.expect kind what (t :: ts) = ⟨some t, ts, []⟩ := by
        simp [Parser.expect, h, Parser.done]
      exact single (by simp [hrun]) (by simp [hrun]) (by simp [hrun])
    · have hrun : Parser.expect kind what (t :: ts) = Parser.fail (.expected what) (t :: ts) := by
        simp [Parser.expect, h]
      exact single (by simp [hrun, Parser.fail]) (by simp [hrun, Parser.fail])
        (by simp [hrun, Parser.fail])

/-- One parser after another. -/
theorem bind {f : α → Recorded β} (h : Follows ts n p)
    (hf : ∀ a mid, mid <:+ ts → mid.length + n ≤ ts.length → Follows mid m (f a)) :
    Follows ts (n + m) (p >>= f) := by
  have hdescends := h.descends
  have howned := h.owned
  cases hvalue : (p.run ts).value with
  | none =>
    obtain ⟨hrun, hrecord⟩ := bind_of_none (f := f) hvalue
    rw [hvalue] at howned
    refine ⟨?_, ?_, ?_, ?_⟩ <;> rw [hrun]
    · exact hrecord ▸ hdescends
    · exact fun hsome => absurd hsome Bool.false_ne_true
    · exact hrecord ▸ howned
    · exact hrecord ▸ h.sweeps
  | some a =>
    obtain ⟨hrun, hrecord⟩ := bind_of_some (f := f) hvalue
    have hleft := h.taken (hvalue ▸ rfl)
    have hnext := hf a _ hdescends.suffix hleft
    rw [hvalue] at howned
    refine ⟨?_, ?_, ?_, ?_⟩ <;> rw [hrun]
    · exact hrecord ▸ hdescends.append hnext.descends
    · intro hsome
      have hmore := hnext.taken hsome
      dsimp only
      omega
    · have hmore := hnext.owned
      simp only [Option.isNone_some, Bool.false_eq_true, if_false] at howned
      simp only [hrecord, Record.leftOut_append, List.length_append]
      omega
    · rw [hrecord]
      intro s hs
      obtain hs | hs := List.mem_append.mp hs
      · exact (h.sweeps s hs).mono (List.suffix_refl _) (List.prefix_append _ _).isInfix
      · exact (hnext.sweeps s hs).mono hdescends.suffix (List.suffix_append _ _).isInfix

/-- One parser after another, where it does not matter how much they take. -/
theorem next {f : α → Recorded β} (h : Follows ts n p)
    (hf : ∀ a mid, mid <:+ ts → mid.length + n ≤ ts.length → Follows mid 0 (f a)) :
    Follows ts 0 (p >>= f) := (bind h hf).imp (Nat.zero_le _)

/-- One parser after another, of which the first takes enough. -/
theorem first {f : α → Recorded β} (h : Follows ts n p)
    (hf : ∀ a mid, mid <:+ ts → mid.length + n ≤ ts.length → Follows mid 0 (f a)) :
    Follows ts n (p >>= f) := bind h hf

theorem map {f : α → β} (h : Follows ts n p) : Follows ts n (f <$> p) :=
  h.first fun a _ _ _ => done (a := f a)

theorem mapped {f : α → β} (h : Follows ts n p) : Follows ts n (mapped f p) where
  descends := h.descends
  taken hsome := h.taken (by simpa [Recorded.mapped, Parse.Reply.map] using hsome)
  owned := by simpa [Recorded.mapped, Parse.Reply.map] using h.owned
  sweeps := h.sweeps

/-- A parser that goes on as another one, in front of the next token or behind it. -/
theorem moving {q : Recorded α} {mid : List Token} (hmid : mid <:+ ts)
    (htaken : mid.length + m ≤ ts.length) (hrun : p.run ts = q.run mid)
    (hrecord : p.record ts = .append ⟨[ts, mid], []⟩ (q.record mid)) (h : Follows mid n q) :
    Follows ts (n + m) p where
  descends := by
    rw [hrun, hrecord]
    exact ⟨List.suffix_refl _, hmid, h.descends⟩
  taken := by
    rw [hrun]
    intro hsome
    have hrest := h.taken hsome
    omega
  owned := by
    rw [hrun, hrecord, Record.leftOut_append]
    simpa [Record.leftOut] using h.owned
  sweeps := by
    rw [hrun, hrecord]
    exact fun s hs => (h.sweeps s hs).mono hmid (List.infix_refl _)

theorem taking {behind? : Token → List Token → Option (Recorded α)} {otherwise : Recorded α}
    (hbehind : ∀ t mid q, ts = t :: mid → behind? t mid = some q → Follows mid (n - 1) q)
    (hother : Follows ts n otherwise) : Follows ts n (taking behind? otherwise) := by
  cases ts with
  | nil => exact congr (q := otherwise) rfl rfl hother
  | cons t mid =>
    cases hq : behind? t mid with
    | none => exact congr (by simp [Recorded.taking, hq]) (by simp [Recorded.taking, hq]) hother
    | some q =>
      refine imp (moving (m := 1) (List.suffix_cons t mid) (Nat.le_refl _) ?_ ?_
        (hbehind t mid q rfl hq)) (by omega)
      · simp [Recorded.taking, hq]
      · simp [Recorded.taking, hq]

/-- The next token is taken if it has one of some kinds. -/
theorem accepting {kinds : List Kind} {f : Option Token → Recorded β} (hnone : Follows ts m (f none))
    (hsome : ∀ t mid, ts = t :: mid → Follows mid (m - 1) (f (some t))) :
    Follows ts m (Recorded.accept kinds >>= f) := by
  -- what accepting one of the kinds comes to is what `f` does with the token or without one
  have hgo {mid : List Token} {token : Option Token}
      (haccept : Parser.accept kinds ts = ⟨some token, mid, []⟩) :
      (Recorded.accept kinds >>= f).run ts = (f token).run mid ∧
        (Recorded.accept kinds >>= f).record ts =
          .append ⟨[ts, mid], []⟩ ((f token).record mid) := by
    simp only [Bind.bind, andThen, Parser.andThen, Recorded.accept, Recorded.single, haccept]
    exact ⟨rfl, trivial⟩
  have hstay (haccept : Parser.accept kinds ts = ⟨some none, ts, []⟩) :
      Follows ts m (Recorded.accept kinds >>= f) :=
    moving (m := 0) (List.suffix_refl _) (Nat.le_refl _) (hgo haccept).1 (hgo haccept).2 hnone
  cases ts with
  | nil => exact hstay rfl
  | cons t mid =>
    by_cases h : t.kind ∈ kinds
    · have haccept : Parser.accept kinds (t :: mid) = ⟨some (some t), mid, []⟩ := by
        simp [Parser.accept, h, Parser.done]
      exact imp (moving (m := 1) (List.suffix_cons t mid) (Nat.le_refl _) (hgo haccept).1
        (hgo haccept).2 (hsome t mid rfl)) (by omega)
    · exact hstay (by simp [Parser.accept, h, Parser.done])

/-- A loop follows what its steps follow. -/
theorem repeated {step : α → Recorded (Option α)} {a : α}
    (hstep : ∀ a mid, mid <:+ ts → Follows mid 0 (step a)) : Follows ts 0 (repeated step a) := by
  suffices h : ∀ (fuel mid : List Token) (a : α), mid <:+ ts → Follows mid 0 (repeatUpTo step fuel a) by
    refine congr (q := repeatUpTo step ts a) ?_ rfl (h ts ts a (List.suffix_refl _))
    rw [run_repeatUpTo]
    rfl
  intro fuel
  induction fuel with
  | nil => exact fun mid a _ => done
  | cons _ fuel ih =>
    intro mid a hmid
    refine first (hstep a mid hmid) fun b rest hrest _ => ?_
    cases b with
    | none => exact done
    | some b => exact ih rest b (hrest.trans hmid)

theorem collect {stop : List Token → Bool} {item : Recorded (Option α)}
    (hitem : ∀ mid, mid <:+ ts → Follows mid 0 item) : Follows ts 0 (collect stop item) := by
  suffices h : ∀ fuel mid : List Token, mid <:+ ts → Follows mid 0 (collectUpTo stop item fuel) by
    refine congr (q := collectUpTo stop item ts) ?_ rfl (h ts ts (List.suffix_refl _))
    rw [run_collectUpTo]
    rfl
  intro fuel
  induction fuel with
  | nil => exact fun mid _ => done
  | cons _ fuel ih =>
    intro mid hmid
    by_cases hstop : stop mid
    · exact congr (q := Recorded.done []) (by simp [collectUpTo, endingAt, hstop, Recorded.done])
        (by simp [collectUpTo, endingAt, hstop, Recorded.done]) done
    · refine congr (q := item >>= fun a => collectUpTo stop item fuel >>= fun others =>
        Recorded.done (a.toList ++ others)) (by simp [collectUpTo, endingAt, hstop])
        (by simp [collectUpTo, endingAt, hstop]) ?_
      exact next (hitem mid hmid) fun a rest hrest _ =>
        next (ih rest (hrest.trans hmid)) fun others rest' _ _ => done

theorem items {what : String} {item : Recorded α}
    (hitem : ∀ mid, mid <:+ ts → Follows mid 1 item) : Follows ts 1 (items what item) := by
  refine first (hitem ts (List.suffix_refl _)) fun head mid hmid _ => repeated fun found now hnow => ?_
  refine accepting done fun comma rest hrest => ?_
  subst hrest
  have hrest : rest <:+ ts := (List.suffix_cons _ _).trans (hnow.trans hmid)
  by_cases hfull : Parse.mostItems ≤ found.length
  · simp only [hfull, if_true]
    exact first note fun _ now' hnow' _ =>
      next (hitem now' (hnow'.trans hrest)) fun a _ _ _ => done
  · simp only [hfull, if_false]
    exact next (hitem rest hrest) fun a _ _ _ => done

theorem chain {kinds : List Kind} {node : α → Token → α → α} {operand : Recorded α}
    (hoperand : ∀ mid, mid <:+ ts → Follows mid 1 operand) :
    Follows ts 1 (chain kinds node operand) := by
  refine first (hoperand ts (List.suffix_refl _)) fun head mid hmid _ =>
    repeated fun left now hnow => ?_
  refine accepting done fun operator rest hrest => ?_
  subst hrest
  exact next (hoperand rest ((List.suffix_cons _ _).trans (hnow.trans hmid))) fun right _ _ _ => done

end Follows

/-- The tokens at which reading goes on after a fault, of which one is dropped if there is one. -/
theorem recover_suffix (ts : List Token) :
    Parse.recover ts <:+ ts ∧ (ts ≠ [] → (Parse.recover ts).length < ts.length) := by
  have hskip (previous : Token) (ts : List Token) : Parse.skipFrom previous ts <:+ ts := by
    induction ts generalizing previous with
    | nil => exact List.suffix_refl _
    | cons t ts ih =>
      unfold Parse.skipFrom
      split
      · exact List.suffix_refl _
      · exact (ih t).trans (List.suffix_cons t ts)
  cases ts with
  | nil => exact ⟨List.suffix_refl _, fun h => absurd rfl h⟩
  | cons t ts =>
    exact ⟨(hskip t ts).trans (List.suffix_cons t ts),
      fun _ => Nat.lt_succ_of_le (hskip t ts).length_le⟩

/-- What a call does whose failure is caught: it answers, takes a token in any case, and has a
fault of its own if it leaves the declaration out. -/
structure Attempts (ts : List Token) (p : Recorded (Option RawStmt)) : Prop where
  descends : Descends ts (p.record ts).places (p.run ts).rest
  answered : (p.run ts).value.isSome
  shorter : (p.run ts).rest.length < ts.length
  owned : (p.record ts).leftOut + (if (p.run ts).value.join.isNone then 1 else 0) ≤
    (p.run ts).faults.length
  sweeps : ∀ s ∈ (p.record ts).sweeps, s.Sound ts (p.run ts).faults

theorem Attempts.advances {ts : List Token} {p : Recorded (Option RawStmt)} (h : Attempts ts p)
    (hts : ts ≠ []) : Call.Advances ⟨ts, p.run ts⟩ where
  notAtEnd := hts
  answered := h.answered
  suffix := h.descends.suffix
  shorter := h.shorter
  reported hnone := by
    have howned := h.owned
    have hleft : (p.run ts).value.join = none := hnone
    rw [hleft] at howned
    exact List.ne_nil_of_length_pos (Nat.lt_of_lt_of_le (Nat.lt_add_left _ Nat.one_pos) howned)

theorem attempt_attempts {ts : List Token} {p : Recorded RawStmt} (h : Follows ts 1 p)
    (hts : ts ≠ []) : Attempts ts (attempt p) := by
  have hdescends := h.descends
  have howned := h.owned
  cases hvalue : (p.run ts).value with
  | some a =>
    have hrun : (attempt p).run ts = ⟨some (some a), (p.run ts).rest, (p.run ts).faults⟩ := by
      simp [Recorded.attempt, hvalue]
    have hrecord : (attempt p).record ts = p.record ts := by simp [Recorded.attempt, hvalue]
    rw [hvalue] at howned
    exact ⟨hrun ▸ hrecord ▸ hdescends, hrun ▸ rfl, hrun ▸ h.taken (hvalue ▸ rfl),
      hrun ▸ hrecord ▸ howned, hrun ▸ hrecord ▸ h.sweeps⟩
  | none =>
    have hrun : (attempt p).run ts =
        ⟨some none, Parse.recover (p.run ts).rest, (p.run ts).faults⟩ := by
      simp [Recorded.attempt, hvalue]
    have hrecord : (attempt p).record ts =
        (p.record ts).append ⟨[(p.run ts).rest, Parse.recover (p.run ts).rest], []⟩ := by
      simp [Recorded.attempt, hvalue]
    obtain ⟨hsuffix, hshorter⟩ := recover_suffix (p.run ts).rest
    rw [hvalue] at howned
    refine ⟨?_, hrun ▸ rfl, ?_, ?_, ?_⟩ <;> rw [hrun]
    · rw [hrecord]
      exact hdescends.append ⟨List.suffix_refl _, hsuffix, List.suffix_refl _⟩
    · cases hrest : (p.run ts).rest with
      | nil => exact List.length_pos_iff.mpr hts
      | cons t rest =>
        rw [hrest] at hshorter
        have hleft := hdescends.suffix.length_le
        rw [hrest] at hleft
        exact Nat.lt_of_lt_of_le (hshorter (List.cons_ne_nil _ _)) hleft
    · rw [hrecord, Record.leftOut_append]
      exact howned
    · rw [hrecord]
      simpa [Record.append] using h.sweeps

/-- What declarations come to that are read by some calls. -/
structure Sweeps (stop : List Token → Bool) (ts : List Token) (calls : List Call)
    (reply : Parse.Reply (List RawStmt)) (record : Record) : Prop where
  descends : Descends ts record.places reply.rest
  kept : reply.value = some (calls.filterMap Call.statement?)
  stopped : stop reply.rest
  owned : record.leftOut + calls.countP (·.statement?.isNone) ≤ reply.faults.length
  sweeps : ∀ s ∈ record.sweeps, s.Sound ts reply.faults
  calls : ∀ c ∈ calls, c.Advances ∧ c.tokens <:+ ts ∧ c.reply.faults <:+: reply.faults

section
variable {stop : List Token → Bool} {ts : List Token} {item : Recorded (Option RawStmt)}

theorem Sweeps.cons {calls : List Call} {reply : Parse.Reply (List RawStmt)} {record : Record}
    (hts : ts ≠ []) (h : Attempts ts item)
    (hothers : Sweeps stop (item.run ts).rest calls reply record) :
    Sweeps stop ts (⟨ts, item.run ts⟩ :: calls)
      ⟨some ((item.run ts).value.join.toList ++ calls.filterMap Call.statement?), reply.rest,
        (item.run ts).faults ++ reply.faults⟩ ((item.record ts).append record) where
  descends := h.descends.append hothers.descends
  kept := by
    rw [List.filterMap_cons, Call.statement?]
    cases (item.run ts).value.join <;> rfl
  stopped := hothers.stopped
  owned := by
    have howned := h.owned
    have howned' := hothers.owned
    have hstatement : Call.statement? ⟨ts, item.run ts⟩ = (item.run ts).value.join := rfl
    rw [Record.leftOut_append, List.countP_cons, hstatement, List.length_append]
    omega
  sweeps s hs := by
    obtain hs | hs := List.mem_append.mp hs
    · exact (h.sweeps s hs).mono (List.suffix_refl _) (List.prefix_append _ _).isInfix
    · exact (hothers.sweeps s hs).mono h.descends.suffix (List.suffix_append _ _).isInfix
  calls c hc := by
    obtain rfl | hc := List.mem_cons.mp hc
    · exact ⟨h.advances hts, List.suffix_refl _, (List.prefix_append _ _).isInfix⟩
    · obtain ⟨hadvances, htokens, hfaults⟩ := hothers.calls c hc
      exact ⟨hadvances, htokens.trans h.descends.suffix,
        hfaults.trans (List.suffix_append _ _).isInfix⟩

/-- With enough fuel the calls go on until they have to stop. -/
theorem sweeps_collectUpTo (hempty : stop [] = true)
    (hitem : ∀ mid, mid <:+ ts → mid ≠ [] → Attempts mid item) (fuel mid : List Token)
    (hfuel : mid.length ≤ fuel.length) (hmid : mid <:+ ts) :
    Sweeps stop mid (callsUpTo stop item.run fuel mid) ((collectUpTo stop item fuel).run mid)
      ((collectUpTo stop item fuel).record mid) := by
  have hdone (mid : List Token) (hstop : stop mid) : Sweeps stop mid [] ⟨some [], mid, []⟩ .empty :=
    ⟨List.suffix_refl _, rfl, hstop, Nat.le_refl _, List.forall_mem_nil _, List.forall_mem_nil _⟩
  induction fuel generalizing mid with
  | nil =>
    obtain rfl : mid = [] := List.eq_nil_of_length_eq_zero (Nat.le_zero.mp hfuel)
    exact hdone [] hempty
  | cons _ fuel ih =>
    rw [collectUpTo, callsUpTo]
    by_cases hstop : stop mid
    · simp only [endingAt, hstop, if_true]
      exact hdone mid hstop
    · have hne : mid ≠ [] := by
        rintro rfl
        exact hstop hempty
      have hattempt := hitem mid hmid hne
      have hrest := ih (item.run mid).rest
        (Nat.le_of_lt_succ (Nat.lt_of_lt_of_le hattempt.shorter hfuel))
        (hattempt.descends.suffix.trans hmid)
      obtain ⟨a, ha⟩ := Option.isSome_iff_exists.mp hattempt.answered
      obtain ⟨hrun, hrecord⟩ := bind_of_some (f := fun a => collectUpTo stop item fuel >>=
        fun others => done (a.toList ++ others)) ha
      obtain ⟨hrun', hrecord'⟩ := bind_of_some (f := fun others => done (a.toList ++ others))
        hrest.kept
      have hcons := hrest.cons hne hattempt
      simp only [endingAt, hstop, hattempt.answered, hrun, hrecord, hrun', hrecord', if_true]
      simpa [ha, done, Parser.done, Record.append, Record.empty] using hcons

/-- Declarations up to where they stop. -/
theorem sweep_follows (hempty : stop [] = true)
    (hitem : ∀ mid, mid <:+ ts → mid ≠ [] → Attempts mid item) :
    Follows ts 0 (sweep stop item) ∧ ((sweep stop item).run ts).value.isSome ∧
      stop ((sweep stop item).run ts).rest := by
  have hsweeps := sweeps_collectUpTo hempty hitem ts ts (Nat.le_refl _) (List.suffix_refl _)
  have hrun : (collectUpTo stop item ts).run ts = (sweep stop item).run ts := by
    rw [run_collectUpTo]
    rfl
  have hrecord : (sweep stop item).record ts = ((collectUpTo stop item ts).record ts).append
      ⟨[], [⟨callsUpTo stop item.run ts ts, (sweep stop item).run ts⟩]⟩ := rfl
  rw [hrun] at hsweeps
  have hanswered : ((sweep stop item).run ts).value.isSome := by
    rw [hsweeps.kept]
    rfl
  refine ⟨⟨?_, ?_, ?_, ?_⟩, hanswered, hsweeps.stopped⟩
  · rw [hrecord, Record.append, List.append_nil]
    exact hsweeps.descends
  · exact fun _ => hsweeps.descends.suffix.length_le
  · rw [hrecord, Record.leftOut_append, Option.isNone_eq_false_iff.mpr hanswered]
    simpa [Record.leftOut, Sweep.leftOut] using hsweeps.owned
  · rw [hrecord]
    intro s hs
    obtain hs | hs := List.mem_append.mp hs
    · exact hsweeps.sweeps s hs
    · obtain rfl := List.mem_singleton.mp hs
      exact ⟨hsweeps.kept, hsweeps.calls⟩

end

/-- The recorded parsers for what is nested, closed deeply enough: for each token three levels, as
at one token a block can open a statement and that an assignment. -/
structure Nested.Follow (k : Nested) (d : Nat) : Prop where
  assignment : ∀ ts, 3 * ts.length + 1 ≤ d → Follows ts 1 k.assignment
  statement : ∀ ts, 3 * ts.length + 2 ≤ d → Follows ts 1 k.statement
  block : ∀ ts, 3 * ts.length + 3 ≤ d → Follows ts 1 k.block

section Grammar
variable {k : Nested} {d : Nat} {ts : List Token} (hk : k.Follow d)
include hk

theorem expression_follows (hd : 3 * ts.length + 1 ≤ d) : Follows ts 1 (expression k) :=
  .chain fun mid hmid => hk.assignment mid (by have := hmid.length_le; omega)

theorem varRest_follows (hd : 3 * ts.length + 1 ≤ d) : Follows ts 1 (varRest k) := by
  refine .first .expect fun name mid _ hmid => .accepting ?_ fun equal mid' hmid' => ?_
  · exact .next .done fun _ _ _ _ => .next .expect fun _ _ _ _ => .done
  · subst hmid'
    rw [List.length_cons] at hmid
    exact .next (.map (expression_follows hk (by omega))) fun _ _ _ _ =>
      .next .expect fun _ _ _ _ => .done

theorem routine_follows (hd : 3 * ts.length ≤ d) (before role : String) :
    Follows ts 1 (routine k before role) := by
  refine .first .expect fun opening mid _ hmid => .next .check fun empty now _ hnow => ?_
  have hrest (params mid' : List Token) (hmid' : mid'.length ≤ now.length) : Follows mid' 0 (do
      let _ ← expect .rightParen "')' after parameters"
      let _ ← expect .leftBrace ("'\x7b' before " ++ role ++ " body")
      let body ← k.block
      done (params, body)) :=
    .next .expect fun _ _ _ h₁ => .next .expect fun _ mid'' _ h₂ =>
      .next (hk.block mid'' (by omega)) fun _ _ _ _ => .done
  split
  · exact .next .done fun params mid' _ h => hrest params mid' h
  · exact .next (.items fun _ _ => .expect) fun params mid' hmid' _ =>
      hrest params mid' hmid'.length_le

theorem method_follows (hd : 3 * ts.length ≤ d) : Follows ts 1 (method k) :=
  .first .expect fun _ _ _ _ => .next (routine_follows hk (by omega) _ _) fun _ _ _ _ => .done

theorem classRest_follows (hd : 3 * ts.length ≤ d) : Follows ts 1 (classRest k) :=
  .first .expect fun _ _ _ _ => .next .expect fun _ mid _ _ =>
    .next (.collect fun now hnow => .imp (.map (method_follows hk (by
      have := hnow.length_le
      omega))) (Nat.zero_le _)) fun _ _ _ _ => .next .expect fun _ _ _ _ => .done

theorem functionRest_follows (hd : 3 * ts.length ≤ d) : Follows ts 1 (functionRest k) :=
  .first .expect fun _ _ _ _ => .next (routine_follows hk (by omega) _ _) fun _ _ _ _ => .done

theorem functionLiteral_follows (hd : 3 * ts.length ≤ d) : Follows ts 1 (functionLiteral k) := by
  refine .accepting ?_ fun name mid hmid => ?_
  · exact .first (routine_follows hk hd _ _) fun _ _ _ _ => .done
  · subst hmid
    rw [List.length_cons] at hd
    exact .next (routine_follows hk (by omega) _ _) fun _ _ _ _ => .done

theorem groupRest_follows (hd : 3 * ts.length + 1 ≤ d) : Follows ts 1 (groupRest k) :=
  .first (expression_follows hk hd) fun _ _ _ _ => .next .expect fun _ _ _ _ => .done

theorem primary_follows (hd : 3 * ts.length ≤ d) : Follows ts 1 (primary k) := by
  refine .taking (fun t mid q hts hq => ?_) .fail
  subst hts
  rw [List.length_cons] at hd
  split at hq <;> cases hq
  -- the constants and names take one token, then come function literals and groups
  iterate 7 exact .done
  · exact .imp (functionLiteral_follows hk (by omega)) (Nat.zero_le _)
  · exact .imp (groupRest_follows hk (by omega)) (Nat.zero_le _)

theorem callRest_follows (hd : 3 * ts.length + 1 ≤ d) (callee : RawExpr) :
    Follows ts 0 (callRest k callee) := by
  refine .next .check fun empty now _ hnow => ?_
  split
  · exact .next .done fun _ _ _ _ => .next .expect fun _ _ _ _ => .done
  · refine .next (.items fun mid hmid => hk.assignment mid ?_) fun _ _ _ _ =>
      .next .expect fun _ _ _ _ => .done
    have := hmid.length_le
    omega

theorem suffix?_follows (hd : 3 * ts.length ≤ d) (left : RawExpr) :
    Follows ts 0 (suffix? k left) := by
  refine .taking (fun t mid q hts hq => ?_) .done
  subst hts
  rw [List.length_cons] at hd
  split at hq <;> cases hq
  · exact .map (callRest_follows hk (by omega) left)
  · exact .next .expect fun _ _ _ _ => .done

theorem call_follows (hd : 3 * ts.length ≤ d) : Follows ts 1 (call k) := by
  refine .first (primary_follows hk hd) fun head mid hmid _ => .repeated fun left now hnow => ?_
  have := (hnow.trans hmid).length_le
  exact suffix?_follows hk (by omega) left

theorem unary_follows (hd : 3 * ts.length ≤ d) : Follows ts 1 (unary k) := by
  induction ts with
  | nil =>
    refine .congr (q := call k) ?_ rfl (call_follows hk hd)
    rw [run_call]
    rfl
  | cons t ts ih =>
    rw [List.length_cons] at hd
    by_cases ht : t.kind = .bang ∨ t.kind = .minus
    · have hmapped : Follows ts 1 (mapped (Expr.unary t) (unary k)) := .mapped (ih (by omega))
      refine .imp (.moving (m := 1) (List.suffix_cons t ts) (Nat.le_refl _) ?_ ?_ hmapped) (by omega)
      · simp [unary, mapped, Parse.unary, ht]
      · simp [unary, mapped, unaryRecord, ht]
    · refine .congr (q := call k) ?_ ?_ (call_follows hk (by rw [List.length_cons]; exact hd))
      · rw [run_call]
        simp [unary, Parse.unary, ht]
      · simp [unary, unaryRecord, ht]

theorem operation_follows (hd : 3 * ts.length ≤ d) : Follows ts 1 (operation k) := by
  suffices h : ∀ (levels : List Parse.Level) (mid : List Token), mid <:+ ts → Follows mid 1
      (levels.foldr (fun level operand => chain level.kinds level.node operand) (unary k)) from
    h Parse.levels ts (List.suffix_refl _)
  intro levels
  induction levels with
  | nil =>
    intro mid hmid
    have := hmid.length_le
    exact unary_follows hk (by omega)
  | cons level levels ih => exact fun mid hmid => .chain fun now hnow => ih now (hnow.trans hmid)

theorem assignment_follows (hd : 3 * ts.length ≤ d) : Follows ts 1 (assignment k) := by
  refine .first (operation_follows hk hd) fun left mid _ hmid => .accepting .done fun sign mid' h => ?_
  subst h
  rw [List.length_cons] at hmid
  refine .next (hk.assignment mid' (by omega)) fun value rest _ _ => ?_
  cases left with
  | get object name => exact .done
  | «variable» name mark => exact .done
  | _ => exact .next .noteAt fun _ _ _ _ => .done

theorem expressionStatement_follows (hd : 3 * ts.length + 1 ≤ d) :
    Follows ts 1 (expressionStatement k) :=
  .first (expression_follows hk hd) fun _ _ _ _ => .next .expect fun _ _ _ _ => .done

theorem printRest_follows (hd : 3 * ts.length + 1 ≤ d) : Follows ts 1 (printRest k) :=
  .first (expression_follows hk hd) fun _ _ _ _ => .next .expect fun _ _ _ _ => .done

theorem returnRest_follows (hd : 3 * ts.length + 1 ≤ d) (keyword : Token) :
    Follows ts 0 (returnRest k keyword) := by
  refine .next .check fun bare now _ hnow => ?_
  split
  · exact .next .done fun _ _ _ _ => .next .expect fun _ _ _ _ => .done
  · exact .next (.map (expression_follows hk (by omega))) fun _ _ _ _ =>
      .next .expect fun _ _ _ _ => .done

theorem ifRest_follows (hd : 3 * ts.length + 1 ≤ d) : Follows ts 1 (ifRest k) := by
  refine .first .expect fun _ mid _ hmid => .next (expression_follows hk (by omega))
    fun _ mid₁ _ h₁ => .next .expect fun _ mid₂ _ h₂ => ?_
  refine .next (hk.statement mid₂ (by omega)) fun yes mid₃ _ h₃ => .accepting ?_ fun other mid₄ h => ?_
  · exact .next .done fun _ _ _ _ => .done
  · subst h
    rw [List.length_cons] at h₃
    exact .next (.map (hk.statement mid₄ (by omega))) fun _ _ _ _ => .done

theorem whileRest_follows (hd : 3 * ts.length + 1 ≤ d) : Follows ts 1 (whileRest k) :=
  .first .expect fun _ _ _ _ => .next (expression_follows hk (by omega)) fun _ _ _ _ =>
    .next .expect fun _ mid _ _ => .next (hk.statement mid (by omega)) fun _ _ _ _ => .done

theorem forInitializer_follows (hd : 3 * ts.length + 1 ≤ d) : Follows ts 1 (forInitializer k) := by
  refine .taking (fun t mid q hts hq => ?_) (.map (expressionStatement_follows hk hd))
  subst hts
  rw [List.length_cons] at hd
  split at hq <;> cases hq
  · exact .done
  · exact .imp (.map (varRest_follows hk (by omega))) (Nat.zero_le _)

theorem expressionUnless_follows (hd : 3 * ts.length + 1 ≤ d) (kind : Kind) :
    Follows ts 0 (expressionUnless k kind) := by
  refine .next .check fun missing now _ hnow => ?_
  split
  · exact .done
  · exact .imp (.map (expression_follows hk (by omega))) (Nat.zero_le _)

theorem forRest_follows (hd : 3 * ts.length + 1 ≤ d) : Follows ts 1 (forRest k) := by
  refine .first .expect fun _ mid _ hmid => .next (forInitializer_follows hk (by omega))
    fun initializer mid₁ _ h₁ => ?_
  refine .next (expressionUnless_follows hk (by omega) _) fun _ mid₂ _ h₂ => .next .expect
    fun _ mid₃ _ h₃ => ?_
  refine .next (expressionUnless_follows hk (by omega) _) fun _ mid₄ _ h₄ => .next .expect
    fun _ mid₅ _ h₅ => .next (hk.statement mid₅ (by omega)) fun _ _ _ _ => ?_
  cases initializer with
  | none => exact .done
  | some first => exact .done

theorem statement_follows (hd : 3 * ts.length + 1 ≤ d) : Follows ts 1 (statement k) := by
  refine .taking (fun t mid q hts hq => ?_) (expressionStatement_follows hk hd)
  subst hts
  rw [List.length_cons] at hd
  have hd' : 3 * mid.length + 1 ≤ d := by omega
  split at hq <;> cases hq
  · exact .imp (forRest_follows hk hd') (Nat.zero_le _)
  · exact .imp (ifRest_follows hk hd') (Nat.zero_le _)
  · exact .imp (whileRest_follows hk hd') (Nat.zero_le _)
  · exact .imp (printRest_follows hk hd') (Nat.zero_le _)
  · exact returnRest_follows hk hd' t
  · exact .next .expect fun _ _ _ _ => .done
  · exact .next .expect fun _ _ _ _ => .done
  · exact .imp (.mapped (hk.block mid (by omega))) (Nat.zero_le _)

theorem declarationBody_follows (hd : 3 * ts.length + 2 ≤ d) :
    Follows ts 1 (declarationBody k) := by
  refine .taking (fun t mid q hts hq => ?_) (hk.statement ts hd)
  subst hts
  rw [List.length_cons] at hd
  split at hq
  · cases hq
    exact .imp (classRest_follows hk (by omega)) (Nat.zero_le _)
  · split at hq <;> cases hq
    exact .imp (functionRest_follows hk (by omega)) (Nat.zero_le _)
  · cases hq
    exact .imp (varRest_follows hk (by omega)) (Nat.zero_le _)
  · cases hq

theorem declaration_attempts (hd : 3 * ts.length + 2 ≤ d) (hts : ts ≠ []) :
    Attempts ts (declaration k) :=
  attempt_attempts (declarationBody_follows hk hd) hts

theorem declarations_follow {stop : List Token → Bool} (hempty : stop [] = true)
    (hd : 3 * ts.length + 2 ≤ d) :
    Follows ts 0 (sweep stop (declaration k)) ∧
      ((sweep stop (declaration k)).run ts).value.isSome ∧
      stop ((sweep stop (declaration k)).run ts).rest := by
  refine sweep_follows hempty fun mid hmid hne => declaration_attempts hk ?_ hne
  have := hmid.length_le
  omega

theorem block_follows (hd : 3 * ts.length + 2 ≤ d) : Follows ts 1 (block k) :=
  .bind (n := 0) (declarations_follow hk rfl hd).1 fun _ _ _ _ => .first .expect fun _ _ _ _ => .done

end Grammar

theorem nested_follow (d : Nat) : (nested d).Follow d := by
  -- without levels left there are no tokens for which anything would have to be shown
  induction d with
  | zero => exact ⟨fun ts hd => by omega, fun ts hd => by omega, fun ts hd => by omega⟩
  | succ d ih =>
    exact ⟨fun ts hd => assignment_follows ih (by omega), fun ts hd => statement_follows ih (by omega),
      fun ts hd => block_follows ih (by omega)⟩

theorem program_follows (words : List Token) :
    Follows words 0 program ∧ (program.run words).value.isSome ∧ (program.run words).rest = [] := by
  have hdepth : 3 * words.length + 2 ≤ Parse.depthFor words.length := by
    unfold Parse.depthFor
    omega
  have hempty : List.isEmpty ([] : List Token) = true := rfl
  obtain ⟨hfollows, hanswered, hstopped⟩ := declarations_follow
    (nested_follow (Parse.depthFor words.length)) hempty hdepth
  exact ⟨.congr (q := declarations words) rfl rfl hfollows, hanswered, List.isEmpty_iff.mp hstopped⟩

end Recorded

namespace Parse

/-- The index of the token in front of which a place stands. -/
def position (words place : List Token) : Nat := words.length - place.length

/-- Parsing some tokens comes to an end at the first mark for the end of the text, the tokens being
`words` in front of it and `more` behind it. -/
structure Finishes (tokens words : List Token) (last : Token) (more : List Token)
    (faults : List Fault) : Prop where
  split : tokens = words ++ last :: more
  isWord : ∀ t ∈ words, t.kind ≠ .eof
  isMark : last.kind = .eof
  /-- The record is that of the parser itself. -/
  recorded : Recorded.program.run = program
  /-- There is an answer, and what is left is what stands at the mark. -/
  answer : program words = ⟨some (parse tokens).program, [], faults⟩
  diagnostics : (parse tokens).diagnostics = faults.map (·.diagnostic last)
  /-- No place stands behind the mark. -/
  inside : ∀ place ∈ (Recorded.program.record words).places, place <:+ words
  /-- No step goes back. -/
  forward : ((Recorded.program.record words).places.map (position words)).Pairwise (· ≤ ·)
  /-- Every call for a declaration takes a token, and has a fault if it leaves the declaration out. -/
  sweeps : ∀ s ∈ (Recorded.program.record words).sweeps, s.Sound words faults
  /-- The last sweep is the one over the whole text. -/
  top : ∃ others calls, (Recorded.program.record words).sweeps =
    others ++ [⟨calls, program words⟩]
  /-- There are at least as many faults as declarations that are left out. -/
  owned : (Recorded.program.record words).leftOut ≤ (parse tokens).diagnostics.length

end Parse

/-- Whatever the tokens are, if there is a mark for the end of the text among them then parsing
comes to an end at the first one, forwards only, and reports every declaration that it leaves
out. -/
theorem parse_finishes (tokens : List Token) (h : ∃ t ∈ tokens, t.kind = .eof) :
    ∃ words last more faults, Parse.Finishes tokens words last more faults := by
  obtain ⟨last, words, more, hfind, rfl, hlast, hwords⟩ : ∃ last words more,
      tokens.find? (·.kind == .eof) = some last ∧ tokens = words ++ last :: more ∧
        last.kind = .eof ∧ ∀ t ∈ words, t.kind ≠ .eof := by
    have hsome : (tokens.find? (·.kind == .eof)).isSome := by simpa using h
    obtain ⟨last, hfind⟩ := Option.isSome_iff_exists.mp hsome
    obtain ⟨hlast, words, more, htokens, hwords⟩ := List.find?_eq_some_iff_append.mp hfind
    exact ⟨last, words, more, hfind, htokens, by simpa using hlast, by simpa using hwords⟩
  have htake : (words ++ last :: more).takeWhile (·.kind != .eof) = words := by
    rw [List.takeWhile_append_of_pos (by simpa using hwords)]
    simp [hlast]
  obtain ⟨hfollows, hanswered, hrest⟩ := Recorded.program_follows words
  rw [Recorded.run_program] at hanswered hrest
  obtain ⟨statements, hvalue⟩ := Option.isSome_iff_exists.mp hanswered
  obtain ⟨hinside, hforward⟩ := hfollows.descends.positions
  have hfaults : (parse (words ++ last :: more)).diagnostics =
      (Parse.program words).faults.map (·.diagnostic last) := by
    simp only [parse, htake, hfind, Option.getD_some]
  have howned := Nat.le_of_add_right_le hfollows.owned
  rw [Recorded.run_program] at howned
  refine ⟨words, last, more, (Parse.program words).faults, rfl, hwords, hlast,
    Recorded.run_program, ?_, hfaults, hinside, ?_, ?_, ?_, ?_⟩
  · rw [parse, htake, hvalue, Option.getD_some, ← hvalue, ← hrest]
  · refine List.pairwise_map.mpr (hforward.imp fun hab => ?_)
    exact Nat.sub_le_sub_left hab.length_le _
  · rw [← Recorded.run_program]
    exact hfollows.sweeps
  · rw [← Recorded.run_program]
    exact ⟨_, _, rfl⟩
  · rw [hfaults, List.length_map]
    exact howned

/-- A block with a declaration that cannot be finished, a parenthesis that belongs nowhere, and a
word behind the mark. -/
def brokenTokens : List Token :=
  [⟨.leftBrace, "\x7b", .nil, 1, some 0⟩, ⟨.kwVar, "var", .nil, 1, some 2⟩,
    ⟨.semicolon, ";", .nil, 1, some 6⟩, ⟨.kwBreak, "break", .nil, 1, some 8⟩,
    ⟨.semicolon, ";", .nil, 1, some 13⟩, ⟨.rightBrace, "\x7d", .nil, 1, some 15⟩,
    ⟨.rightParen, ")", .nil, 1, some 17⟩, .endOfText 1, ⟨.kwVar, "var", .nil, 1, some 19⟩]

theorem brokenTokens_finish :
    (∃ t ∈ brokenTokens, t.kind = .eof) ∧
      (Recorded.program.record (brokenTokens.take 7)).leftOut = 2 ∧
      ∃ words last more faults, Parse.Finishes brokenTokens words last more faults := by
  have hmark : ∃ t ∈ brokenTokens, t.kind = .eof := ⟨.endOfText 1, by simp [brokenTokens], rfl⟩
  exact ⟨hmark, rfl, parse_finishes brokenTokens hmark⟩

end LoxScript
