import OsProjects.Jit.Grammar

/-!
# The parser against its grammar

Completeness is an induction on derivations, soundness and termination are inductions
on the fuel. Together with the description of the failing inputs they say what the
parser does on every token list: it returns the tree of the grammar, rejects, or reads
outside the table of operator names, the last exactly on the lists that `Misses`.
-/
namespace OsProjects.Jit

variable {ν : Type}

/-- The function of the source that parses a symbol. -/
inductive Parses : Symbol ν → (Nat → Parser ν → Result ν) → Prop where
  | primary : Parses .primary exprPrimary
  | unary : Parses .unary exprUnary
  | tail {level : Level} (dag : Dag ν) :
      Parses (.tail level dag.tree) fun fuel => exprLoop level fuel dag dag
  | binary {level : Level} : Parses (.binary level) (exprBinary level)

theorem Parses.loop {level : Level} {left : Tree ν} {run : Nat → Parser ν → Result ν}
    (h : Parses (.tail level left) run) :
    ∃ dag : Dag ν, dag.tree = left ∧ run = fun fuel => exprLoop level fuel dag dag := by
  generalize e : Symbol.tail level left = s at h
  cases h with
  | tail dag =>
    cases e
    exact ⟨dag, rfl, rfl⟩
  | _ => cases e

/-- The parse yields the tree and leaves `rest`, unless the fuel runs out. -/
def Accepts (result : Result ν) (t : Tree ν) (rest : List (Token ν)) : Prop :=
  result = .error .hang ∨
    ∃ dag p', result = .ok (some dag, p') ∧ dag.tree = t ∧ p'.toks = rest

theorem exprOperand_zero (level : Level) (p : Parser ν) :
    exprOperand level 0 p = .error .hang := by
  cases level <;> rfl

theorem exprOperand_succ (level : Level) :
    ∃ run, Parses (level.operand : Symbol ν) run ∧
      ∀ fuel p, exprOperand level (fuel + 1) p = run fuel p := by
  cases level with
  | multiplicative => exact ⟨_, .unary, fun fuel p => by simp [exprOperand]⟩
  | additive => exact ⟨_, .binary, fun fuel p => by simp [exprOperand]⟩

/-- What holds of every parser of an operand holds of `exprOperand`. -/
theorem exprOperand_accepts {level : Level} {t : Tree ν} {rest : List (Token ν)} {p : Parser ν}
    (h : ∀ run, Parses level.operand run → ∀ fuel, Accepts (run fuel p) t rest) (fuel : Nat) :
    Accepts (exprOperand level fuel p) t rest := by
  cases fuel with
  | zero => exact Or.inl (exprOperand_zero level p)
  | succ fuel =>
    obtain ⟨run, parses, eq⟩ := exprOperand_succ (ν := ν) level
    rw [eq]
    exact h run parses fuel

theorem exprLoop_ends {level : Level} {p : Parser ν} (ends : Ends level p.toks) (left dag : Dag ν)
    (fuel : Nat) : exprLoop level (fuel + 1) left dag p = .ok (some dag, p) := by
  cases e : p.toks with
  | nil => simp [exprLoop, e]
  | cons tok rest => simp [exprLoop, e, ends tok rest e]

/-- Every derivation is parsed, whatever follows it. -/
theorem parse_complete {s : Symbol ν} {w : List (Token ν)} {t : Tree ν} (h : Derives s w t) :
    ∀ run, Parses s run → ∀ fuel p rest, p.toks = w ++ rest → s.Follows rest →
      Accepts (run fuel p) t rest := by
  induction h with
  | val v =>
    rintro _ ⟨⟩ fuel p rest toks _
    cases fuel with
    | zero => exact Or.inl rfl
    | succ fuel => exact Or.inr ⟨_, _, by simp [exprPrimary, toks]; exact ⟨rfl, rfl⟩, rfl, rfl⟩
  | @paren w t _ ih =>
    rintro _ ⟨⟩ fuel p rest toks _
    cases fuel with
    | zero => exact Or.inl rfl
    | succ fuel =>
      have toks : p.toks = .open_ :: (w ++ .close :: rest) := by simpa using toks
      have closed : (Symbol.binary .additive : Symbol ν).Follows (.close :: rest) :=
        ⟨Ends.cons rfl rest, Ends.cons rfl rest⟩
      simp only [exprPrimary, toks]
      cases fuel with
      | zero => exact Or.inl (by simp [expr])
      | succ fuel =>
        rcases ih _ .binary fuel { p with toks := w ++ .close :: rest } _ rfl closed with
          stop | ⟨dag, p', ok, tree, toks'⟩
        · exact Or.inl (by simp [expr, stop])
        · exact Or.inr ⟨dag, { p' with toks := rest }, by simp [expr, ok, toks'], tree, rfl⟩
  | @plus w t _ ih =>
    rintro _ ⟨⟩ fuel p rest toks _
    cases fuel with
    | zero => exact Or.inl rfl
    | succ fuel =>
      have toks : p.toks = .add :: (w ++ rest) := toks
      simp only [exprUnary, toks]
      rcases ih _ .unary fuel { p with toks := w ++ rest } rest rfl trivial with
        stop | ⟨dag, p', ok, tree, toks'⟩
      · exact Or.inl (by simp [stop])
      · exact Or.inr ⟨dag, p', by simp [ok], tree, toks'⟩
  | @minus w t _ ih =>
    rintro _ ⟨⟩ fuel p rest toks _
    cases fuel with
    | zero => exact Or.inl rfl
    | succ fuel =>
      have toks : p.toks = .sub :: (w ++ rest) := toks
      simp only [exprUnary, toks]
      rcases ih _ .unary fuel { p with id := p.id + 1, toks := w ++ rest } rest rfl trivial with
        stop | ⟨dag, p', ok, tree, toks'⟩
      · exact Or.inl (by simp [stop])
      · exact Or.inr ⟨.neg (p.id + 1) dag, p', by simp [ok], by rw [Dag.tree, tree], toks'⟩
  | @unsigned w t derives ih =>
    rintro _ ⟨⟩ fuel p rest toks _
    cases fuel with
    | zero => exact Or.inl rfl
    | succ fuel =>
      have same : exprUnary (fuel + 1) p = exprPrimary fuel p := by
        cases derives <;> simp [exprUnary, toks]
      rw [same]
      exact ih _ .primary fuel p rest toks trivial
  | @nil level left =>
    intro run parses fuel p rest toks follows
    obtain ⟨dag, rfl, rfl⟩ := parses.loop
    cases fuel with
    | zero => exact Or.inl (by simp [exprLoop])
    | succ fuel =>
      have toks : p.toks = rest := toks
      exact Or.inr ⟨dag, p, exprLoop_ends (toks ▸ follows.1) dag dag fuel, rfl, toks⟩
  | @cons level left right t tok op w w' operator _ tail ih_operand ih_tail =>
    intro run parses fuel p rest toks follows
    obtain ⟨dag, rfl, rfl⟩ := parses.loop
    cases fuel with
    | zero => exact Or.inl (by simp [exprLoop])
    | succ fuel =>
      have toks : p.toks = tok :: (w ++ (w' ++ rest)) := by simpa using toks
      have next := tail.operand_follows follows.2
      simp only [exprLoop, toks, operator]
      rcases exprOperand_accepts (fun run parses fuel => ih_operand run parses fuel
        { p with id := p.id + 1, toks := w ++ (w' ++ rest) } _ rfl next) fuel with
        stop | ⟨right', p₁, ok, tree, toks₁⟩
      · exact Or.inl (by simp [stop])
      · simp only [ok]
        subst tree
        have again : Accepts (exprLoop level fuel (.bin op (p.id + 1) dag right')
            (.bin op (p.id + 1) dag right') p₁) t rest :=
          ih_tail _ (.tail (.bin op (p.id + 1) dag right')) fuel p₁ rest toks₁ follows
        rcases again with stop | ⟨dag₂, p₂, ok₂, tree₂, toks₂⟩
        · exact Or.inl (by simp [stop])
        · simp only [ok₂]
          cases fuel with
          | zero => exact Or.inl (by simp [exprLoop])
          | succ fuel =>
            -- the self call has taken every operator of the level
            refine Or.inr ⟨dag₂, p₂, exprLoop_ends ?_ dag dag₂ fuel, tree₂, toks₂⟩
            rw [toks₂]
            exact follows.1
  | @binary level left t w w' _ tail ih_operand ih_tail =>
    rintro _ ⟨⟩ fuel p rest toks follows
    cases fuel with
    | zero => exact Or.inl (by simp [exprBinary])
    | succ fuel =>
      have toks : p.toks = w ++ (w' ++ rest) := by simpa using toks
      simp only [exprBinary]
      rcases exprOperand_accepts (fun run parses fuel => ih_operand run parses fuel p _ toks
        (tail.operand_follows follows.2)) fuel with stop | ⟨dag, p₁, ok, tree, toks₁⟩
      · exact Or.inl (by simp [stop])
      · simp only [ok]
        subst tree
        exact ih_tail _ (.tail dag) fuel p₁ rest toks₁ follows

/-- What a greedy parse of a symbol leaves behind. -/
def Symbol.Ended : Symbol ν → List (Token ν) → Prop
  | .primary, _ => True
  | .unary, _ => True
  | .tail level _, rest => Ends level rest
  | .binary level, rest => Ends level rest

/-- A tree comes from a derivation of the tokens that were taken. -/
def Sound (s : Symbol ν) (result : Result ν) (toks : List (Token ν)) : Prop :=
  ∀ dag p', result = .ok (some dag, p') →
    ∃ w, toks = w ++ p'.toks ∧ Derives s w dag.tree ∧ s.Ended p'.toks

theorem exprOperand_sound (level : Level) {fuel : Nat} (p : Parser ν)
    (h : ∀ n < fuel, ∀ run, Parses level.operand run → Sound level.operand (run n p) p.toks) :
    Sound level.operand (exprOperand level fuel p) p.toks := by
  cases fuel with
  | zero => simp [exprOperand_zero, Sound]
  | succ fuel =>
    obtain ⟨run, parses, eq⟩ := exprOperand_succ (ν := ν) level
    rw [eq]
    exact h fuel (Nat.lt_succ_self fuel) run parses

/-- Every tree that a parse returns is derived by the grammar. -/
theorem parse_sound (fuel : Nat) : ∀ (s : Symbol ν) run, Parses s run →
    ∀ p, Sound s (run fuel p) p.toks := by
  induction fuel using Nat.strong_induction_on with
  | _ fuel ih =>
    intro s run parses p dag p' ok
    cases fuel with
    | zero =>
      cases parses <;> simp [exprPrimary, exprUnary, exprLoop, exprBinary] at ok
    | succ fuel =>
      have sub := fun n (lt : n < fuel) => ih n (Nat.lt_succ_of_lt lt)
      have operand := fun level (p : Parser ν) =>
        exprOperand_sound level p fun n lt run parses => sub n lt _ run parses p
      cases parses with
      | primary =>
        simp only [exprPrimary] at ok
        split at ok
        · rename_i v rest toks
          obtain ⟨rfl, rfl⟩ : _ ∧ _ := by simpa using ok
          exact ⟨[.val v], toks, .val v, trivial⟩
        · rename_i rest toks
          cases fuel with
          | zero => simp [expr] at ok
          | succ fuel =>
            simp only [expr] at ok
            split at ok
            · simp at ok
            · simp at ok
            · rename_i inner q run
              split at ok
              · rename_i rest' toks'
                obtain ⟨rfl, rfl⟩ : _ ∧ _ := by simpa using ok
                obtain ⟨w, split_, derives, _⟩ :=
                  sub fuel (Nat.lt_succ_self fuel) _ _ .binary _ _ _ run
                refine ⟨.open_ :: (w ++ [.close]), ?_, .paren derives, trivial⟩
                have split_ : rest = w ++ q.toks := split_
                simp [toks, split_, toks']
              · simp at ok
        · simp at ok
      | unary =>
        simp only [exprUnary] at ok
        split at ok
        · rename_i rest toks
          split at ok
          · simp at ok
          · simp at ok
          · rename_i inner q run
            obtain ⟨rfl, rfl⟩ : _ ∧ _ := by simpa using ok
            obtain ⟨w, split_, derives, _⟩ := ih fuel (Nat.lt_succ_self fuel) _ _ .unary _ _ _ run
            have split_ : rest = w ++ q.toks := split_
            exact ⟨.add :: w, by simp [toks, split_], .plus derives, trivial⟩
        · rename_i rest toks
          split at ok
          · simp at ok
          · simp at ok
          · rename_i inner q run
            obtain ⟨rfl, rfl⟩ : _ ∧ _ := by simpa using ok
            obtain ⟨w, split_, derives, _⟩ := ih fuel (Nat.lt_succ_self fuel) _ _ .unary _ _ _ run
            have split_ : rest = w ++ q.toks := split_
            exact ⟨.sub :: w, by simp [toks, split_], .minus derives, trivial⟩
        · obtain ⟨w, split_, derives, _⟩ := ih fuel (Nat.lt_succ_self fuel) _ _ .primary _ _ _ ok
          exact ⟨w, split_, .unsigned derives, trivial⟩
      | @tail level left =>
        simp only [exprLoop] at ok
        split at ok
        · rename_i toks
          obtain ⟨rfl, rfl⟩ : _ ∧ _ := by simpa using ok
          exact ⟨[], rfl, .nil, by rw [toks]; exact Ends.nil level⟩
        · rename_i tok rest toks
          split at ok
          · rename_i operator
            obtain ⟨rfl, rfl⟩ : _ ∧ _ := by simpa using ok
            exact ⟨[], rfl, .nil, by rw [toks]; exact Ends.cons operator rest⟩
          · rename_i op operator
            split at ok
            · simp at ok
            · simp only [invalidOperand] at ok
              split at ok <;> simp at ok
            · rename_i right p₁ run
              split at ok
              · simp at ok
              · simp at ok
              · rename_i dag₂ p₂ again
                obtain ⟨w, split_, derives, _⟩ := operand level _ _ _ run
                obtain ⟨w', split₂, derives', ended⟩ :=
                  ih fuel (Nat.lt_succ_self fuel) _ _ (.tail _) _ _ _ again
                cases fuel with
                | zero => simp [exprLoop] at ok
                | succ fuel =>
                  rw [exprLoop_ends ended] at ok
                  obtain ⟨rfl, rfl⟩ : _ ∧ _ := by simpa using ok
                  have split_ : rest = w ++ p₁.toks := split_
                  exact ⟨tok :: (w ++ w'), by simp [toks, split_, split₂],
                    .cons operator derives derives', ended⟩
      | @binary level =>
        simp only [exprBinary] at ok
        split at ok
        · simp at ok
        · simp at ok
        · rename_i left p₁ run
          obtain ⟨w, split_, derives, _⟩ := operand level _ _ _ run
          obtain ⟨w', split₂, derives', ended⟩ :=
            ih fuel (Nat.lt_succ_self fuel) _ _ (.tail left) _ _ _ ok
          exact ⟨w ++ w', by simp [split_, split₂], .binary derives derives', ended⟩

/-- A parse that yields neither a tree nor NULL. -/
def Fails (result : Result ν) : Prop := ∃ e, result = .error e

theorem exprOperand_fails {level : Level} {p : Parser ν}
    (h : ∀ run, Parses level.operand run → ∀ fuel, Fails (run fuel p)) (fuel : Nat) :
    Fails (exprOperand level fuel p) := by
  cases fuel with
  | zero => exact ⟨_, exprOperand_zero level p⟩
  | succ fuel =>
    obtain ⟨run, parses, eq⟩ := exprOperand_succ (ν := ν) level
    rw [eq]
    exact h run parses fuel

/-- The table of the additive level has no entry for its own operators. -/
theorem invalidOperand_additive {tok : Token ν} {op : DagOp}
    (h : Level.additive.op tok = some op) (p : Parser ν) :
    invalidOperand .additive op p = .error .outOfBounds := by
  cases tok <;> simp [Level.op] at h <;> subst h <;> rfl

theorem invalidOperand_multiplicative {tok : Token ν} {op : DagOp}
    (h : Level.multiplicative.op tok = some op) (p : Parser ν) :
    ∃ p', invalidOperand .multiplicative op p = .ok (none, p') := by
  cases tok <;> simp [Level.op] at h <;> subst h <;> exact ⟨_, rfl⟩

theorem misses_fails {s : Symbol ν} {w : List (Token ν)} (h : Misses s w) :
    ∀ run, Parses s run → ∀ fuel p, p.toks = w → Fails (run fuel p) := by
  induction h with
  | @paren w _ ih =>
    rintro _ ⟨⟩ fuel p toks
    cases fuel with
    | zero => exact ⟨_, rfl⟩
    | succ fuel =>
      simp only [exprPrimary, toks]
      cases fuel with
      | zero => exact ⟨.hang, by simp [expr]⟩
      | succ fuel =>
        obtain ⟨e, fails⟩ := ih _ .binary fuel { p with toks := w } rfl
        exact ⟨e, by simp [expr, fails]⟩
  | @sign tok w sign _ ih =>
    rintro _ ⟨⟩ fuel p toks
    cases fuel with
    | zero => exact ⟨_, rfl⟩
    | succ fuel =>
      rcases sign with rfl | rfl
      · obtain ⟨e, fails⟩ := ih _ .unary fuel { p with toks := w } rfl
        exact ⟨e, by simp [exprUnary, toks, fails]⟩
      · obtain ⟨e, fails⟩ := ih _ .unary fuel { p with id := p.id + 1, toks := w } rfl
        exact ⟨e, by simp [exprUnary, toks, fails]⟩
  | @unsigned w misses ih =>
    rintro _ ⟨⟩ fuel p toks
    cases fuel with
    | zero => exact ⟨_, rfl⟩
    | succ fuel =>
      have same : exprUnary (fuel + 1) p = exprPrimary fuel p := by
        cases misses
        simp [exprUnary, toks]
      rw [same]
      exact ih _ .primary fuel p toks
  | @here left tok op w operator missing =>
    intro run parses fuel p toks
    obtain ⟨dag, rfl, rfl⟩ := parses.loop
    cases fuel with
    | zero => exact ⟨.hang, by simp [exprLoop]⟩
    | succ fuel =>
      simp only [exprLoop, toks, operator]
      have sound : Sound (Level.additive.operand) (exprOperand .additive fuel
          { p with id := p.id + 1, toks := w }) w :=
        exprOperand_sound _ { p with id := p.id + 1, toks := w } fun n _ run parses =>
          parse_sound n _ run parses _
      cases run : exprOperand .additive fuel { p with id := p.id + 1, toks := w } with
      | error e => exact ⟨e, rfl⟩
      | ok result =>
        obtain ⟨dag', p'⟩ := result
        cases dag' with
        | none => exact ⟨_, invalidOperand_additive operator p'⟩
        | some right =>
          obtain ⟨v, split_, derives, ended⟩ := sound right p' run
          exact absurd derives (missing v p'.toks right.tree split_ ended)
  | @operand level left tok op w operator _ ih =>
    intro run parses fuel p toks
    obtain ⟨dag, rfl, rfl⟩ := parses.loop
    cases fuel with
    | zero => exact ⟨.hang, by simp [exprLoop]⟩
    | succ fuel =>
      obtain ⟨e, fails⟩ := exprOperand_fails (fun run parses fuel =>
        ih run parses fuel { p with id := p.id + 1, toks := w } rfl) fuel
      exact ⟨e, by simp [exprLoop, toks, operator, fails]⟩
  | @later level left right tok op w w' operator derives misses ih =>
    intro run parses fuel p toks
    obtain ⟨dag, rfl, rfl⟩ := parses.loop
    cases fuel with
    | zero => exact ⟨.hang, by simp [exprLoop]⟩
    | succ fuel =>
      simp only [exprLoop, toks, operator]
      rcases exprOperand_accepts (fun run parses fuel => parse_complete derives run parses fuel
        { p with id := p.id + 1, toks := w ++ w' } w' rfl misses.operand_follows) fuel with
        stop | ⟨right', p₁, ok, tree, toks₁⟩
      · exact ⟨.hang, by simp [stop]⟩
      · subst tree
        obtain ⟨e, fails⟩ : Fails (exprLoop level fuel (.bin op (p.id + 1) dag right')
            (.bin op (p.id + 1) dag right') p₁) :=
          ih _ (.tail (.bin op (p.id + 1) dag right')) fuel p₁ toks₁
        exact ⟨e, by simp [ok, fails]⟩
  | @first level w _ ih =>
    rintro _ ⟨⟩ fuel p toks
    cases fuel with
    | zero => exact ⟨.hang, by simp [exprBinary]⟩
    | succ fuel =>
      obtain ⟨e, fails⟩ := exprOperand_fails (fun run parses fuel => ih run parses fuel p toks) fuel
      exact ⟨e, by simp [exprBinary, fails]⟩
  | @tail level left w w' derives misses ih =>
    rintro _ ⟨⟩ fuel p toks
    cases fuel with
    | zero => exact ⟨.hang, by simp [exprBinary]⟩
    | succ fuel =>
      simp only [exprBinary]
      rcases exprOperand_accepts (fun run parses fuel => parse_complete derives run parses fuel
        p w' toks misses.operand_follows) fuel with stop | ⟨dag, p₁, ok, tree, toks₁⟩
      · exact ⟨.hang, by simp [stop]⟩
      · subst tree
        obtain ⟨e, fails⟩ : Fails (exprLoop level fuel dag dag p₁) := ih _ (.tail dag) fuel p₁ toks₁
        exact ⟨e, by simp [ok, fails]⟩

/-- A parse that fails within its fuel runs out of operand under a `+` or `-`. -/
theorem fails_misses (fuel : Nat) : ∀ (s : Symbol ν) run, Parses s run →
    ∀ p, run fuel p = .error .outOfBounds → Misses s p.toks := by
  induction fuel using Nat.strong_induction_on with
  | _ fuel ih =>
    intro s run parses p fails
    cases fuel with
    | zero =>
      cases parses <;> simp [exprPrimary, exprUnary, exprLoop, exprBinary] at fails
    | succ fuel =>
      have sub := fun n (lt : n < fuel) => ih n (Nat.lt_succ_of_lt lt)
      have operand : ∀ level (p : Parser ν), exprOperand level fuel p = .error .outOfBounds →
          Misses level.operand p.toks := by
        intro level p fails
        cases fuel with
        | zero => simp [exprOperand_zero] at fails
        | succ fuel =>
          obtain ⟨run, parses, eq⟩ := exprOperand_succ (ν := ν) level
          rw [eq] at fails
          exact sub fuel (Nat.lt_succ_self fuel) _ run parses p fails
      cases parses with
      | primary =>
        simp only [exprPrimary] at fails
        split at fails
        · simp at fails
        · rename_i rest toks
          rw [toks]
          cases fuel with
          | zero => simp [expr] at fails
          | succ fuel =>
            simp only [expr] at fails
            split at fails
            · rename_i e run
              obtain rfl : e = .outOfBounds := by simpa using fails
              exact .paren (sub fuel (Nat.lt_succ_self fuel) _ _ .binary _ run)
            · simp at fails
            · split at fails <;> simp at fails
        · simp at fails
      | unary =>
        simp only [exprUnary] at fails
        split at fails
        · rename_i rest toks
          rw [toks]
          split at fails
          · rename_i e run
            obtain rfl : e = .outOfBounds := by simpa using fails
            exact .sign (.inl rfl) (ih fuel (Nat.lt_succ_self fuel) _ _ .unary _ run)
          · simp at fails
          · simp at fails
        · rename_i rest toks
          rw [toks]
          split at fails
          · rename_i e run
            obtain rfl : e = .outOfBounds := by simpa using fails
            exact .sign (.inr rfl) (ih fuel (Nat.lt_succ_self fuel) _ _ .unary _ run)
          · simp at fails
          · simp at fails
        · exact .unsigned (ih fuel (Nat.lt_succ_self fuel) _ _ .primary _ fails)
      | @tail level left =>
        simp only [exprLoop] at fails
        split at fails
        · simp at fails
        · rename_i tok rest toks
          rw [toks]
          split at fails
          · simp at fails
          · rename_i op operator
            split at fails
            · rename_i e run
              obtain rfl : e = .outOfBounds := by simpa using fails
              exact .operand operator (operand level _ run)
            · rename_i p' run
              cases level with
              | multiplicative =>
                obtain ⟨p'', ok⟩ := invalidOperand_multiplicative operator p'
                simp [ok] at fails
              | additive =>
                refine .here operator fun v rest' t split_ ends derives => ?_
                -- the grammar would have given the operand that the parse did not find
                have derives : Derives Level.additive.operand v t := derives
                have found : Accepts (exprOperand .additive fuel
                    { p with id := p.id + 1, toks := rest }) t rest' :=
                  exprOperand_accepts (fun run parses fuel => parse_complete derives run parses
                    fuel { p with id := p.id + 1, toks := rest } rest' split_ ⟨ends, ends⟩) fuel
                rcases found with stop | ⟨dag, p', ok, _⟩
                · simp [stop] at run
                · simp [ok] at run
            · rename_i right p₁ run
              obtain ⟨w, split_, derives, _⟩ := exprOperand_sound _ _ (fun n _ run parses =>
                parse_sound n _ run parses _) _ _ run
              have split_ : rest = w ++ p₁.toks := split_
              split at fails
              · rename_i e again
                obtain rfl : e = .outOfBounds := by simpa using fails
                rw [split_]
                exact .later operator derives (ih fuel (Nat.lt_succ_self fuel) _ _ (.tail _) _ again)
              · simp at fails
              · rename_i dag₂ p₂ again
                obtain ⟨_, _, _, ended⟩ := parse_sound fuel _ _ (.tail _) _ _ _ again
                cases fuel with
                | zero => simp [exprLoop] at again
                | succ fuel => simp [exprLoop_ends ended] at fails
      | @binary level =>
        simp only [exprBinary] at fails
        split at fails
        · rename_i e run
          obtain rfl : e = .outOfBounds := by simpa using fails
          exact .first (operand level p run)
        · simp at fails
        · rename_i left p₁ run
          obtain ⟨w, split_, derives, _⟩ := exprOperand_sound _ _ (fun n _ run parses =>
            parse_sound n _ run parses _) _ _ run
          rw [split_]
          exact .tail derives (ih fuel (Nat.lt_succ_self fuel) _ _ (.tail left) _ fails)

/-- Fuel that a parse of a symbol needs besides 8 for each token. -/
def Symbol.rank : Symbol ν → Nat
  | .primary => 1
  | .unary => 2
  | .tail _ _ => 1
  | .binary .multiplicative => 4
  | .binary .additive => 6

theorem Symbol.rank_pos (s : Symbol ν) : 0 < s.rank := by
  rcases s with _ | _ | _ | ⟨_ | _⟩ <;> simp [Symbol.rank]

theorem parse_ends (fuel : Nat) : ∀ (s : Symbol ν) run, Parses s run →
    ∀ p, 8 * p.toks.length + s.rank ≤ fuel → run fuel p ≠ .error .hang := by
  induction fuel using Nat.strong_induction_on with
  | _ fuel ih =>
    intro s run parses p enough hangs
    cases fuel with
    | zero =>
      have := s.rank_pos
      omega
    | succ fuel =>
      have operand : ∀ level (p : Parser ν), 8 * p.toks.length + 5 ≤ fuel ∨
          level = .multiplicative ∧ 8 * p.toks.length + 3 ≤ fuel →
          exprOperand level fuel p ≠ .error .hang := by
        intro level p enough
        cases fuel with
        | zero => omega
        | succ fuel =>
          cases level with
          | multiplicative =>
            simp only [exprOperand]
            refine ih fuel (by omega) _ _ .unary p ?_
            rcases enough with enough | ⟨_, enough⟩ <;> simp only [Symbol.rank] <;> omega
          | additive =>
            simp only [exprOperand]
            refine ih fuel (by omega) _ _ .binary p ?_
            rcases enough with enough | ⟨⟨⟩, _⟩
            simp only [Symbol.rank]
            omega
      cases parses with
      | primary =>
        simp only [exprPrimary] at hangs
        split at hangs
        · simp at hangs
        · rename_i rest toks
          simp only [toks, List.length_cons, Symbol.rank] at enough
          cases fuel with
          | zero => omega
          | succ fuel =>
            simp only [expr] at hangs
            split at hangs
            · rename_i e run
              obtain rfl : e = .hang := by simpa using hangs
              exact ih fuel (by omega) _ _ .binary _ (by simp only [Symbol.rank]; omega) run
            · simp at hangs
            · split at hangs <;> simp at hangs
        · simp at hangs
      | unary =>
        simp only [exprUnary] at hangs
        split at hangs
        · rename_i rest toks
          simp only [toks, List.length_cons, Symbol.rank] at enough
          split at hangs
          · rename_i e run
            obtain rfl : e = .hang := by simpa using hangs
            exact ih fuel (by omega) _ _ .unary _ (by simp only [Symbol.rank]; omega) run
          · simp at hangs
          · simp at hangs
        · rename_i rest toks
          simp only [toks, List.length_cons, Symbol.rank] at enough
          split at hangs
          · rename_i e run
            obtain rfl : e = .hang := by simpa using hangs
            exact ih fuel (by omega) _ _ .unary _ (by simp only [Symbol.rank]; omega) run
          · simp at hangs
          · simp at hangs
        · exact ih fuel (by omega) _ _ .primary p (by simp only [Symbol.rank] at *; omega) hangs
      | @tail level left =>
        simp only [exprLoop] at hangs
        split at hangs
        · simp at hangs
        · rename_i tok rest toks
          simp only [toks, List.length_cons, Symbol.rank] at enough
          split at hangs
          · simp at hangs
          · split at hangs
            · rename_i e run
              obtain rfl : e = .hang := by simpa using hangs
              exact operand level _ (Or.inl (by simp only; omega)) run
            · simp only [invalidOperand] at hangs
              split at hangs <;> simp at hangs
            · rename_i right p₁ run
              obtain ⟨w, split_, _⟩ := exprOperand_sound _ _ (fun n _ run parses =>
                parse_sound n _ run parses _) _ _ run
              have shorter := congrArg List.length split_
              simp only [List.length_append] at shorter
              split at hangs
              · rename_i e again
                obtain rfl : e = .hang := by simpa using hangs
                exact ih fuel (by omega) _ _ (.tail _) p₁ (by simp only [Symbol.rank]; omega) again
              · simp at hangs
              · rename_i dag₂ p₂ again
                obtain ⟨_, _, _, ended⟩ := parse_sound fuel _ _ (.tail _) _ _ _ again
                cases fuel with
                | zero => simp [exprLoop] at again
                | succ fuel => simp [exprLoop_ends ended] at hangs
      | @binary level =>
        have enough_operand : 8 * p.toks.length + 5 ≤ fuel ∨
            level = .multiplicative ∧ 8 * p.toks.length + 3 ≤ fuel := by
          cases level <;> simp [Symbol.rank] at enough ⊢ <;> omega
        simp only [exprBinary] at hangs
        split at hangs
        · rename_i e run
          obtain rfl : e = .hang := by simpa using hangs
          exact operand level p enough_operand run
        · simp at hangs
        · rename_i left p₁ run
          obtain ⟨w, split_, _⟩ := exprOperand_sound _ _ (fun n _ run parses =>
            parse_sound n _ run parses _) _ _ run
          have shorter := congrArg List.length split_
          simp only [List.length_append] at shorter
          exact ih fuel (by omega) _ _ (.tail left) p₁ (by simp only [Symbol.rank]; omega) hangs

/-- The property of the parser on one token list: the tree of the grammar where there is one,
and rejection where there is none. -/
structure ParsesExactly (toks : List (Token ν)) : Prop where
  accepts : ∀ t, DerivesTop toks t → ∃ dag, parse toks = .ok (some dag) ∧ dag.tree = t
  rejects : (¬ ∃ t, DerivesTop toks t) → parse toks = .ok none

theorem expr_enough (toks : List (Token ν)) (p : Parser ν) (h : p.toks = toks) :
    ∃ fuel, expr (enoughFuel toks.length) p = exprBinary .additive fuel p ∧
      exprBinary .additive fuel p ≠ .error .hang := by
  refine ⟨8 * toks.length + 6, rfl, parse_ends _ _ _ .binary p ?_⟩
  rw [h, Symbol.rank]

theorem parse_of_derives {toks : List (Token ν)} {t : Tree ν} (h : DerivesTop toks t) :
    ∃ dag, parse toks = .ok (some dag) ∧ dag.tree = t := by
  obtain ⟨fuel, eq, ends⟩ := expr_enough toks ⟨0, none, toks⟩ rfl
  rcases parse_complete h _ .binary fuel ⟨0, none, toks⟩ [] (by simp) ⟨Ends.nil _, Ends.nil _⟩ with
    stop | ⟨dag, p', ok, tree, toks'⟩
  · exact absurd stop ends
  · exact ⟨dag, by simp [parse, top, eq, ok, toks', Except.map], tree⟩

/-- The grammar is unambiguous. -/
theorem DerivesTop.unique {toks : List (Token ν)} {t t' : Tree ν} (h : DerivesTop toks t)
    (h' : DerivesTop toks t') : t = t' := by
  obtain ⟨dag, ok, rfl⟩ := parse_of_derives h
  obtain ⟨dag', ok', rfl⟩ := parse_of_derives h'
  rw [ok] at ok'
  simp at ok'
  rw [ok']

theorem derives_of_parse {toks : List (Token ν)} {dag : Dag ν} (h : parse toks = .ok (some dag)) :
    DerivesTop toks dag.tree := by
  obtain ⟨fuel, eq, _⟩ := expr_enough toks ⟨0, none, toks⟩ rfl
  simp only [parse, top, eq] at h
  cases run : exprBinary .additive fuel ⟨0, none, toks⟩ with
  | error e => simp [run, Except.map] at h
  | ok result =>
    obtain ⟨dag', p'⟩ := result
    cases dag' with
    | none => simp [run, Except.map] at h
    | some dag' =>
      obtain ⟨w, split_, derives, _⟩ := parse_sound fuel _ _ .binary _ _ _ run
      cases rest : p'.toks with
      | nil =>
        obtain rfl : dag' = dag := by simpa [run, rest, Except.map] using h
        rw [rest, List.append_nil] at split_
        subst split_
        exact derives
      | cons tok rest' => simp [run, rest, Except.map] at h

/-- A parse reads outside the operator table exactly where it misses an operand of `+` or `-`. -/
theorem parse_fails_iff (toks : List (Token ν)) :
    (∃ e, parse toks = .error e) ↔ Misses (.binary .additive) toks := by
  obtain ⟨fuel, eq, ends⟩ := expr_enough toks ⟨0, none, toks⟩ rfl
  constructor
  · rintro ⟨e, fails⟩
    simp only [parse, top, eq] at fails
    cases run : exprBinary .additive fuel ⟨0, none, toks⟩ with
    | error e =>
      cases e with
      | hang => exact absurd run ends
      | outOfBounds => exact fails_misses fuel _ _ .binary _ run
    | ok result =>
      obtain ⟨dag, p'⟩ := result
      cases dag with
      | none => simp [run, Except.map] at fails
      | some dag => cases rest : p'.toks <;> simp [run, rest, Except.map] at fails
  · intro misses
    obtain ⟨e, fails⟩ := misses_fails misses _ .binary fuel ⟨0, none, toks⟩ rfl
    exact ⟨e, by simp [parse, top, eq, fails, Except.map]⟩

/-- The parser is exact on a token list if and only if no binary `+` or `-` of it misses its
operand. -/
theorem parsesExactly_iff (toks : List (Token ν)) :
    ParsesExactly toks ↔ ¬ Misses (.binary .additive) toks := by
  rw [← parse_fails_iff]
  constructor
  · rintro exact_ ⟨e, fails⟩
    by_cases derivable : ∃ t, DerivesTop toks t
    · obtain ⟨t, derives⟩ := derivable
      obtain ⟨dag, ok, _⟩ := exact_.accepts t derives
      simp [ok] at fails
    · simp [exact_.rejects derivable] at fails
  · intro never
    refine ⟨fun t => parse_of_derives, fun underivable => ?_⟩
    cases run : parse toks with
    | error e => exact absurd ⟨e, run⟩ never
    | ok result =>
      cases result with
      | none => rfl
      | some dag => exact absurd ⟨_, derives_of_parse run⟩ underivable

/-- `1 +` is not rejected: the error message reads behind the table of names. -/
theorem parse_val_add : ¬ ParsesExactly [.val 1, .add] := by
  have fails : parse [.val 1, .add] = .error .outOfBounds := by rfl
  intro exact_
  by_cases derivable : ∃ t, DerivesTop [.val 1, .add] t
  · obtain ⟨t, derives⟩ := derivable
    obtain ⟨dag, ok, _⟩ := exact_.accepts t derives
    simp [ok] at fails
  · simp [exact_.rejects derivable] at fails

end OsProjects.Jit
