import ConfluentKafka.NonFiniteRewrite

/-!
# The rewritten tree

The tree of the rewritten text is the tree of the text with placeholders for its barewords. No text of
the extended grammar has a value right behind a bareword.
-/

namespace ConfluentKafka

open Json JsonTree

/-! ## Placeholders in trees -/

namespace Json

def Literal.planted (key : JsString) : Literal → Source
  | .text s => .number (.text s)
  | .nonFinite k => .object [(key, .number (.text [UInt16.ofNat (48 + k.val)]))]

def plant (key : JsString) (t : Source) : Source := t.bind (Literal.planted key)

def Container.planted (key : JsString) : Container → Container
  | .array es => .array (es.map (plant key))
  | .object fs pending => .object (fs.map (onValue (plant key))) pending

def Parse.planted (key : JsString) : Parse → Parse
  | .value stack => .value (stack.map (Container.planted key))
  | .firstElement stack => .firstElement (stack.map (Container.planted key))
  | .firstKey stack => .firstKey (stack.map (Container.planted key))
  | .key stack => .key (stack.map (Container.planted key))
  | .colon stack => .colon (stack.map (Container.planted key))
  | .after stack => .after (stack.map (Container.planted key))
  | .done v => .done (plant key v)

section

variable (key : JsString) {t : Token} (stack : List Container) (v : Source)

theorem plant_array (es : List Source) : plant key (.array es) = .array (es.map (plant key)) := by
  rw [plant, JsonTree.bind, bindElements_eq]
  rfl

theorem plant_object (fs : List (JsString × Source)) : plant key (.object fs) = .object
    (fs.map (onValue (plant key))) := by
  rw [plant, JsonTree.bind, bindFields_eq]
  rfl

theorem complete_planted :
    complete (plant key v) (stack.map (Container.planted key)) = (complete v stack).map (Parse.planted key) := by
  cases stack with
  | nil => rfl
  | cons container rest =>
    cases container with
    | array es => simp [complete, Container.planted, Parse.planted]
    | object fs pending =>
      cases pending with
      | none => rfl
      | some name => simp [complete, Container.planted, Parse.planted, onValue]

theorem scalar_planted (ht : t.Plain) (h : t.scalar = some v) : plant key v = v := by
  cases t with
  | nonFinite k => exact absurd rfl (ht k)
  | string s =>
    cases h
    rfl
  | number text =>
    cases h
    rfl
  | true =>
    cases h
    rfl
  | false =>
    cases h
    rfl
  | null =>
    cases h
    rfl
  | _ => cases h

theorem beginValue_planted (ht : t.Plain) :
    beginValue (stack.map (Container.planted key)) t = (beginValue stack t).map (Parse.planted key) := by
  have hscalar : ∀ v, t.scalar = some v →
      complete v (stack.map (Container.planted key)) = (complete v stack).map (Parse.planted key) := by
    intro v hv
    rw [← complete_planted, scalar_planted key v ht hv]
  cases t with
  | nonFinite k => exact absurd rfl (ht k)
  | lbrace => rfl
  | lbracket => rfl
  | string s => exact hscalar _ rfl
  | number text => exact hscalar _ rfl
  | true => exact hscalar _ rfl
  | false => exact hscalar _ rfl
  | null => exact hscalar _ rfl
  | _ => rfl

theorem close_planted : close (stack.map (Container.planted key)) t = (close stack t).map (Parse.planted key) := by
  cases stack with
  | nil => rfl
  | cons container rest =>
    cases container with
    | array es =>
      cases t with
      | rbracket =>
        show complete (.array (es.map (plant key))) (rest.map (Container.planted key)) = _
        rw [← plant_array, complete_planted]
        rfl
      | _ => rfl
    | object fs pending =>
      cases pending with
      | some name => rfl
      | none =>
        cases t with
        | rbrace =>
          show complete (.object (fs.map (onValue (plant key)))) (rest.map (Container.planted key)) = _
          rw [← plant_object, complete_planted]
          rfl
        | _ => rfl

theorem beginKey_planted : beginKey (stack.map (Container.planted key)) t = (beginKey stack t).map
    (Parse.planted key) := by
  cases stack with
  | nil => rfl
  | cons container rest =>
    cases container with
    | array es => rfl
    | object fs pending =>
      cases pending with
      | some name => rfl
      | none =>
        cases t with
        | _ => rfl

end

theorem step_after {t : Token} {stack : List Container} (ht : t ≠ .comma) : (Parse.after stack).step t =
    close stack t := if_neg ht

theorem step_planted (key : JsString) {t : Token} (ht : t.Plain) (p : Parse) :
    (p.planted key).step t = (p.step t).map (Parse.planted key) := by
  cases p with
  | value stack => exact beginValue_planted key stack ht
  | firstElement stack =>
    rw [Parse.planted, Parse.step, Parse.step]
    split_ifs
    · exact close_planted key stack
    · exact beginValue_planted key stack ht
  | firstKey stack =>
    rw [Parse.planted, Parse.step, Parse.step]
    split_ifs
    · exact close_planted key stack
    · exact beginKey_planted key stack
  | key stack => exact beginKey_planted key stack
  | colon stack =>
    by_cases hcolon : t = .colon
    · subst hcolon
      rfl
    · simp [Parse.planted, Parse.step, hcolon]
  | after stack =>
    by_cases hcomma : t = .comma
    · subst hcomma
      cases stack with
      | nil => rfl
      | cons container rest =>
        cases container with
        | array es => rfl
        | object fs pending => rfl
    · rw [Parse.planted, step_after hcomma, step_after hcomma]
      exact close_planted key stack
  | done v => rfl

/-- A value begins with a bareword or with a brace in the same places. -/
theorem step_nonFinite (k : Fin 3) (p : Parse) :
    p.step (.nonFinite k) = none ∧ p.step .lbrace = none ∨ ∃ stack, p = .value stack ∨ p = .firstElement stack := by
  cases p with
  | value stack => exact .inr ⟨stack, .inl rfl⟩
  | firstElement stack => exact .inr ⟨stack, .inr rfl⟩
  | colon stack => exact .inl ⟨rfl, rfl⟩
  | done v => exact .inl ⟨rfl, rfl⟩
  | firstKey stack =>
    left
    cases stack with
    | nil => exact ⟨rfl, rfl⟩
    | cons container rest =>
      rcases container with es | ⟨fs, _ | name⟩
      · exact ⟨rfl, rfl⟩
      · exact ⟨rfl, rfl⟩
      · exact ⟨rfl, rfl⟩
  | key stack =>
    left
    cases stack with
    | nil => exact ⟨rfl, rfl⟩
    | cons container rest =>
      rcases container with es | ⟨fs, _ | name⟩
      · exact ⟨rfl, rfl⟩
      · exact ⟨rfl, rfl⟩
      · exact ⟨rfl, rfl⟩
  | after stack =>
    left
    rw [step_after (fun heq => by cases heq), step_after (fun heq => by cases heq)]
    cases stack with
    | nil => exact ⟨rfl, rfl⟩
    | cons container rest =>
      rcases container with es | ⟨fs, _ | name⟩
      · exact ⟨rfl, rfl⟩
      · exact ⟨rfl, rfl⟩
      · exact ⟨rfl, rfl⟩

theorem parseFrom_cons (p : Parse) (t : Token) (ts : List Token) :
    parseFrom p (t :: ts) = (p.step t).bind fun p' => parseFrom p' ts := rfl

theorem parseFrom_placeholder (key : JsString) (k : Fin 3) (p : Parse) (ts : List Token) :
    parseFrom (p.planted key) (Token.planted key (.nonFinite k) ++ ts) =
      ((p.step (.nonFinite k)).map (Parse.planted key)).bind fun p' => parseFrom p' ts := by
  rcases step_nonFinite k p with ⟨hbareword, hbrace⟩ | ⟨stack, rfl | rfl⟩
  · rw [hbareword, Token.planted, List.cons_append, parseFrom_cons, step_planted key (fun k heq => by cases heq),
      hbrace]
    rfl
  · show (complete (plant key (.number (.nonFinite k))) (stack.map (Container.planted key))).bind _ = _
    rw [complete_planted]
    rfl
  · show (complete (plant key (.number (.nonFinite k))) (stack.map (Container.planted key))).bind _ = _
    rw [complete_planted]
    rfl

theorem parseFrom_planted (key : JsString) (p : Parse) (ts : List Token) :
    parseFrom (p.planted key) (plantTokens key ts) = (parseFrom p ts).map (plant key) := by
  induction ts generalizing p with
  | nil =>
    cases p with
    | _ => rfl
  | cons t ts ih =>
    have hbind : ((p.step t).map (Parse.planted key)).bind (fun p' => parseFrom p' (plantTokens key ts)) =
        (parseFrom p (t :: ts)).map (plant key) := by
      rw [parseFrom_cons]
      cases p.step t with
      | none => rfl
      | some p' => exact ih p'
    rw [← hbind, plantTokens, List.flatMap_cons]
    cases t with
    | nonFinite k => exact parseFrom_placeholder key k p (plantTokens key ts)
    | _ =>
      rw [← step_planted key (fun k heq => by cases heq)]
      rfl

/-! ## Behind a value -/

/-- No value begins where one has been completed. -/
theorem step_complete (v : Source) (stack : List Container) {p : Parse} {t : Token} (h : complete v stack = some p)
    (ht : t.scalar.isSome) : p.step t = none := by
  have hafter : ∀ stack, (Parse.after stack).step t = none := by
    intro stack
    have hcomma : t ≠ .comma := by
      intro heq
      subst heq
      cases ht
    rw [step_after hcomma]
    rcases stack with _ | ⟨es | ⟨fs, _ | name⟩, rest⟩
    · rfl
    · cases t with
      | rbracket => cases ht
      | _ => rfl
    · cases t with
      | rbrace => cases ht
      | _ => rfl
    · rfl
  rcases stack with _ | ⟨es | ⟨fs, _ | name⟩, rest⟩
  · cases h
    rfl
  · cases h
    exact hafter _
  · cases h
  · cases h
    exact hafter _

theorem separated_of_parseFrom {p : Parse} {ts : List Token} {v : Source} (h : parseFrom p ts = some v) :
    Separated ts := by
  induction ts generalizing p with
  | nil => exact .nil
  | cons t ts ih =>
    obtain ⟨p', hstep, hrest⟩ := Option.bind_eq_some_iff.mp h
    cases ts with
    | nil => exact .singleton t
    | cons t' ts =>
      refine .cons_cons ?_ (ih hrest)
      rintro ⟨k, rfl⟩
      by_contra hscalar
      obtain ⟨p'', hstep', -⟩ := Option.bind_eq_some_iff.mp hrest
      rcases step_nonFinite k p with ⟨hnone, -⟩ | ⟨stack, rfl | rfl⟩
      · rw [hnone] at hstep
        cases hstep
      · rw [step_complete (.number (.nonFinite k)) stack hstep (Option.isSome_iff_ne_none.mpr hscalar)] at hstep'
        cases hstep'
      · rw [step_complete (.number (.nonFinite k)) stack hstep (Option.isSome_iff_ne_none.mpr hscalar)] at hstep'
        cases hstep'

/-! ## How many barewords there are -/

def Literal.barewords : Literal → Nat
  | .text _ => 0
  | .nonFinite _ => 1

def barewords (t : Source) : Nat := t.weight Literal.barewords

def Container.barewords : Container → Nat
  | .array es => weightElements Literal.barewords es
  | .object fs _ => weightFields Literal.barewords fs

def stackBarewords (stack : List Container) : Nat := (stack.map Container.barewords).sum

def Parse.barewords : Parse → Nat
  | .value stack | .firstElement stack | .firstKey stack | .key stack | .colon stack | .after stack =>
    stackBarewords stack
  | .done v => Json.barewords v

section

variable {stack : List Container} {t : Token} {p : Parse}

theorem complete_barewords {v : Source} (h : complete v stack = some p) : p.barewords = stackBarewords stack +
    barewords v := by
  rcases stack with _ | ⟨es | ⟨fs, _ | name⟩, rest⟩
  · cases h
    exact (Nat.zero_add _).symm
  · cases h
    simp only [Parse.barewords, stackBarewords, List.map_cons, List.sum_cons, Container.barewords, barewords,
      weightElements_eq,
      List.map_append, List.sum_append, List.map_nil, List.sum_nil]
    omega
  · cases h
  · cases h
    simp only [Parse.barewords, stackBarewords, List.map_cons, List.sum_cons, Container.barewords, barewords,
      weightFields_eq,
      List.map_append, List.sum_append, List.map_nil, List.sum_nil]
    omega

theorem beginValue_barewords (h : beginValue stack t = some p) : p.barewords = stackBarewords stack +
    t.barewords := by
  cases t with
  | lbrace =>
    cases h
    simp [Parse.barewords, stackBarewords, Container.barewords, weightFields, Token.barewords]
  | lbracket =>
    cases h
    simp [Parse.barewords, stackBarewords, Container.barewords, weightElements, Token.barewords]
  | string s => exact complete_barewords h
  | number text => exact complete_barewords h
  | true => exact complete_barewords h
  | false => exact complete_barewords h
  | null => exact complete_barewords h
  | nonFinite k => exact complete_barewords h
  | _ => cases h

theorem close_barewords (h : close stack t = some p) : p.barewords = stackBarewords stack + t.barewords := by
  rcases stack with _ | ⟨es | ⟨fs, _ | name⟩, rest⟩
  · cases h
  · cases t with
    | rbracket =>
      rw [complete_barewords h]
      exact Nat.add_comm _ _
    | _ => cases h
  · cases t with
    | rbrace =>
      rw [complete_barewords h]
      exact Nat.add_comm _ _
    | _ => cases h
  · cases h

theorem beginKey_barewords (h : beginKey stack t = some p) : p.barewords = stackBarewords stack + t.barewords := by
  rcases stack with _ | ⟨es | ⟨fs, _ | name⟩, rest⟩
  · cases h
  · cases h
  · cases t with
    | string key =>
      cases h
      rfl
    | _ => cases h
  · cases h

theorem step_barewords {p' : Parse} (h : p.step t = some p') : p'.barewords = p.barewords + t.barewords := by
  cases p with
  | value stack => exact beginValue_barewords h
  | firstElement stack =>
    rw [Parse.step] at h
    split_ifs at h
    · exact close_barewords h
    · exact beginValue_barewords h
  | firstKey stack =>
    rw [Parse.step] at h
    split_ifs at h
    · exact close_barewords h
    · exact beginKey_barewords h
  | key stack => exact beginKey_barewords h
  | colon stack =>
    by_cases hcolon : t = .colon
    · subst hcolon
      cases h
      rfl
    · simp [Parse.step, hcolon] at h
  | after stack =>
    by_cases hcomma : t = .comma
    · subst hcomma
      rcases stack with _ | ⟨es | ⟨fs, pending⟩, rest⟩
      · cases h
      · cases h
        rfl
      · cases h
        rfl
    · rw [step_after hcomma] at h
      exact close_barewords h
  | done v => cases h

end

theorem parseFrom_barewords {p : Parse} {ts : List Token} {v : Source} (h : parseFrom p ts = some v) :
    barewords v = p.barewords + barewordTokens ts := by
  induction ts generalizing p with
  | nil =>
    cases p with
    | done v =>
      cases h
      rfl
    | _ => cases h
  | cons t ts ih =>
    obtain ⟨p', hstep, hrest⟩ := Option.bind_eq_some_iff.mp h
    rw [ih hrest, step_barewords hstep, barewordTokens, barewordTokens, List.map_cons, List.sum_cons, Nat.add_assoc]

end Json

/-! ## The two trees -/

section

variable {key s out : JsString} {n : Nat}

theorem parse_of_rewritten (h : Rewrites key false s out n) (hkey : KeyText key) {r' : Source}
    (hr' : parse false out = some r') :
    ∃ r, parse true s = some r ∧ plant key r = r' ∧ barewords r = n := by
  obtain ⟨ts', hlex, hparse⟩ := Option.bind_eq_some_iff.mp hr'
  obtain ⟨ts, hts, rfl, hcount⟩ := lex_of_rewritten hkey h .start ts' ⟨trivial, trivial⟩ hlex
  have hplanted := parseFrom_planted key (.value []) ts
  rw [show Parse.planted key (.value []) = .value [] from rfl, hparse] at hplanted
  obtain ⟨r, hr, heq⟩ := Option.map_eq_some_iff.mp hplanted.symm
  refine ⟨r, Option.bind_eq_some_iff.mpr ⟨ts, hts, hr⟩, heq, ?_⟩
  rw [parseFrom_barewords hr, hcount]
  exact Nat.zero_add n

theorem parse_rewritten (h : Rewrites key false s out n) (hkey : KeyText key) {r : Source}
    (hr : parse true s = some r) :
    parse false out = some (plant key r) := by
  obtain ⟨ts, hlex, hparse⟩ := Option.bind_eq_some_iff.mp hr
  obtain ⟨ts', hts', rfl, -⟩ :=
    lex_rewritten hkey h .start ts ⟨trivial, trivial⟩ (fun text heq => by cases heq) hlex
      (separated_of_parseFrom hparse)
  refine Option.bind_eq_some_iff.mpr ⟨_, hts', ?_⟩
  have hplanted := parseFrom_planted key (.value []) ts
  rw [hparse] at hplanted
  exact hplanted

end

end ConfluentKafka
