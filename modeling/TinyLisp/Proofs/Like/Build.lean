import TinyLisp.Proofs.Like.Form

/-!
# Building keeps likeness

One lemma for each part of a layer, over a builder that keeps likeness, and from them, by
induction on the number of layers, the same for `Expr.build`.
-/

namespace TinyLisp

variable {L : Leaves}

/-! ## §1. Faults -/

namespace FormError.Alike

variable {v v' : Value}

theorem improperList (h : v.text = v'.text) :
    Alike (.improperList v) (.improperList v') :=
  ⟨rfl, congrArg (fun t => "cannot evaluate improper list " ++ t) h⟩

theorem notASymbol (form : String) (h : v.text = v'.text) :
    Alike (.notASymbol form v) (.notASymbol form v') :=
  ⟨rfl, congrArg (fun t => form ++ ": expected a symbol, got " ++ t) h⟩

theorem malformedBinding (form : String) (h : v.text = v'.text) :
    Alike (.malformedBinding form v) (.malformedBinding form v') :=
  ⟨rfl, congrArg (fun t => form ++ ": malformed binding " ++ t) h⟩

theorem malformedExports (h : v.text = v'.text) :
    Alike (.malformedExports v) (.malformedExports v') :=
  ⟨rfl, congrArg (fun t => "module: malformed export list " ++ t) h⟩

theorem malformedImport (h : v.text = v'.text) :
    Alike (.malformedImport v) (.malformedImport v') :=
  ⟨rfl, congrArg (fun t => "import: malformed import " ++ t) h⟩

theorem wrongCount (form : String) {vs vs' : List Value} (h : vs.length = vs'.length) :
    Alike (.wrongCount form vs.length) (.wrongCount form vs'.length) := by
  rw [h]
  exact .refl _

end FormError.Alike

namespace Expr

/-- Results of building that are alike. -/
abbrev BuiltLike {α β : Type} (R : α → β → Prop) :
    Except FormError α → Except FormError β → Prop :=
  ResultLike FormError.Alike R

/-- A builder keeps likeness. -/
def KeepsLikeness (L : Leaves) (sub : Builder) : Prop :=
  ∀ {v v' : Value}, Value.Like L v v' → BuiltLike (Expr.Like L) (sub v) (sub v')

section

variable {sub : Builder} {v v' : Value} {vs vs' : List Value} (hL : L.Faithful)
  (hsub : KeepsLikeness L sub)

/-! ## §2. Parts -/

include hsub in
theorem buildEach_like (h : List.Forall₂ (Value.Like L) vs vs') :
    BuiltLike (List.Forall₂ (Expr.Like L)) (buildEach sub vs) (buildEach sub vs') := by
  induction h with
  | nil => exact .ok .nil
  | @cons v v' vs vs' hv _ ih =>
    have hx := hsub hv
    simp only [buildEach]
    generalize sub v = x, sub v' = x' at hx
    generalize buildEach sub vs = xs, buildEach sub vs' = xs' at ih
    cases hx with
    | error he => exact .error he
    | ok hab =>
      cases ih with
      | error he => exact .error he
      | ok hs => exact .ok (.cons hab hs)

include hL in
theorem nameIn_like (form : String) (h : Value.Like L v v') :
    BuiltLike Eq (nameIn form v) (nameIn form v') := by
  have ht := h.text_eq hL
  cases h with
  | symbol name => exact .ok rfl
  | _ => exact .error (.notASymbol form ht)

include hL in
theorem namesIn_like (form : String) (h : List.Forall₂ (Value.Like L) vs vs') :
    BuiltLike Eq (namesIn form vs) (namesIn form vs') := by
  induction h with
  | nil => exact .ok rfl
  | cons hv _ ih =>
    refine (nameIn_like hL form hv).bind ?_
    rintro x _ rfl
    refine ih.bind ?_
    rintro xs _ rfl
    exact .ok rfl

include hL in
theorem paramNames_like (form : String) (h : List.Forall₂ (Value.Like L) vs vs') :
    BuiltLike Eq (paramNames form vs) (paramNames form vs') := by
  induction h with
  | nil => exact .ok rfl
  | cons hv _ ih =>
    have ht := hv.text_eq hL
    cases hv with
    | symbol name =>
      refine ih.map ?_
      rintro xs _ rfl
      rfl
    | _ =>
      simp only [paramNames]
      rw [ht]
      exact .error (.refl _)

include hL in
theorem buildParams_like (form : String) (h : Value.Like L v v') :
    BuiltLike Eq (buildParams form v) (buildParams form v') := by
  have hitems := h.elements?
  unfold buildParams
  rw [h.text_eq hL]
  generalize v.elements? = items, v'.elements? = items' at hitems
  cases hitems with
  | none => exact .error (.refl _)
  | some hs =>
    refine (paramNames_like hL form hs).bind ?_
    rintro names _ rfl
    exact .refl FormError.Alike.refl _

include hsub in
theorem buildBody_like (form : String) (h : List.Forall₂ (Value.Like L) vs vs') :
    BuiltLike (Expr.Like L) (buildBody sub form vs) (buildBody sub form vs') := by
  cases h with
  | nil => exact .error (.refl _)
  | cons hv hs =>
    cases hs with
    | nil => exact hsub hv
    | cons hw hs => exact (buildEach_like hsub (.cons hv (.cons hw hs))).map fun _ _ he => .sequence he

include hL hsub in
theorem buildBinding_like (form : String) (h : Value.Like L v v') :
    BuiltLike (BindingLike L) (buildBinding sub form v) (buildBinding sub form v') := by
  have hfault : BuiltLike (BindingLike L)
      (.error (.malformedBinding form v)) (.error (.malformedBinding form v')) :=
    .error (.malformedBinding form (h.text_eq hL))
  have hitems := h.elements?
  unfold buildBinding
  generalize v.elements? = items, v'.elements? = items' at hitems
  cases hitems with
  | none => exact hfault
  | some hs =>
    -- the one good shape is a list of a symbol and another datum
    cases hs with
    | nil => exact hfault
    | cons hn hs =>
      cases hs with
      | nil => cases hn <;> exact hfault
      | cons hi hs =>
        cases hs with
        | nil =>
          cases hn with
          | symbol name => exact (hsub hi).map fun _ _ he => ⟨rfl, he⟩
          | _ => exact hfault
        | cons _ _ => cases hn <;> exact hfault

include hL hsub in
theorem buildBindings_like (form : String) (h : List.Forall₂ (Value.Like L) vs vs') :
    BuiltLike (BindingsLike L) (buildBindings sub form vs) (buildBindings sub form vs') := by
  induction h with
  | nil => exact .ok .nil
  | @cons v v' vs vs' hv _ ih =>
    have hb := buildBinding_like hL hsub form hv
    simp only [buildBindings]
    generalize buildBinding sub form v = b, buildBinding sub form v' = b' at hb
    generalize buildBindings sub form vs = bs, buildBindings sub form vs' = bs' at ih
    cases hb with
    | error he => exact .error he
    | ok hab =>
      cases ih with
      | error he => exact .error he
      | ok hs => exact .ok (.cons hab hs)

/-! ## §3. Special forms -/

theorem buildWrapper_like (k : Keyword) {wrap : Value → Value}
    (hw : ∀ {v v'}, Value.Like L v v' → Value.Like L (wrap v) (wrap v'))
    (h : List.Forall₂ (Value.Like L) vs vs') :
    BuiltLike (Expr.Like L) (buildWrapper k wrap vs) (buildWrapper k wrap vs') := by
  have hlen := h.length_eq
  cases h with
  | nil => exact .error (.refl _)
  | cons hv hs =>
    cases hs with
    | nil => exact .ok (.literal (hw hv))
    | cons _ _ => exact .error (.wrongCount _ hlen)

include hsub in
theorem buildIte_like (h : List.Forall₂ (Value.Like L) vs vs') :
    BuiltLike (Expr.Like L) (buildIte sub vs) (buildIte sub vs') := by
  have hlen := h.length_eq
  cases h with
  | nil => exact .error (.refl _)
  | cons hc h =>
    cases h with
    | nil => exact .error (.refl _)
    | cons ht h =>
      cases h with
      | nil =>
        refine (hsub hc).bind fun c c' hc => (hsub ht).bind fun t t' ht => ?_
        exact .ok (.ite hc ht (.literal .nil))
      | cons he h =>
        cases h with
        | nil =>
          refine (hsub he).bind fun e e' he => (hsub hc).bind fun c c' hc => ?_
          exact (hsub ht).bind fun t t' ht => .ok (.ite hc ht he)
        | cons _ _ => exact .error (.wrongCount _ hlen)

include hL hsub in
theorem buildLet_like (kind : LetKind) (h : List.Forall₂ (Value.Like L) vs vs') :
    BuiltLike (Expr.Like L) (buildLet sub kind vs) (buildLet sub kind vs') := by
  have hlen := h.length_eq
  cases h with
  | nil => exact .error (.refl _)
  | @cons v v' _ _ hv h =>
    cases h with
    | nil => exact .error (.refl _)
    | cons hw h =>
      have hitems := hv.elements?
      have hfault := FormError.Alike.malformedBinding kind.keyword (hv.text_eq hL)
      simp only [buildLet]
      generalize v.elements? = items, v'.elements? = items' at hitems
      cases hitems with
      | none => exact .error hfault
      | some hs =>
        refine (buildBindings_like hL hsub kind.keyword hs).bind fun bs bs' hbs => ?_
        refine (buildBody_like hsub kind.keyword (.cons hw h)).bind fun body body' hbody => ?_
        exact .ok (.letIn kind hbs.keys_eq hbs.entries hbody)

include hL hsub in
theorem buildLambda_like (h : List.Forall₂ (Value.Like L) vs vs') :
    BuiltLike (Expr.Like L) (buildLambda sub vs) (buildLambda sub vs') := by
  cases h with
  | nil => exact .error (.refl _)
  | cons hp h =>
    cases h with
    | nil => exact .error (.refl _)
    | cons hv h =>
      refine (buildParams_like hL "lambda" hp).bind ?_
      rintro params _ rfl
      exact (buildBody_like hsub "lambda" (.cons hv h)).bind fun body body' hbody =>
        .ok (.lambda none params hbody)

include hL hsub in
theorem buildDefine_like (form : String) (h : List.Forall₂ (Value.Like L) vs vs') :
    BuiltLike (Expr.Like L) (buildDefine sub form vs) (buildDefine sub form vs') := by
  have hlen := h.length_eq
  cases h with
  | nil => exact .error (.refl _)
  | cons hn h =>
    cases h with
    | nil => exact .error (.refl _)
    | cons hv h =>
      cases h with
      | nil =>
        refine (nameIn_like hL form hn).bind ?_
        rintro name _ rfl
        exact (hsub hv).bind fun e e' he => .ok (.define name he)
      | cons _ _ => exact .error (.wrongCount _ hlen)

include hL hsub in
theorem buildDefinition_like (kind : DefinitionKind) (h : List.Forall₂ (Value.Like L) vs vs') :
    BuiltLike (Expr.Like L) (buildDefinition sub kind vs) (buildDefinition sub kind vs') := by
  have hlen := h.length_eq
  cases h with
  | nil => exact .error (.refl _)
  | cons hn h =>
    cases h with
    | nil => exact .error (.refl _)
    | cons hp h =>
      cases h with
      | nil => exact .error (.wrongCount _ hlen)
      | cons hv h =>
        refine (nameIn_like hL kind.keyword hn).bind ?_
        rintro name _ rfl
        refine (buildParams_like hL kind.keyword hp).bind ?_
        rintro params _ rfl
        exact (buildBody_like hsub kind.keyword (.cons hv h)).bind fun body body' hbody =>
          .ok (.definition kind name params hbody)

include hL in
theorem buildExports_like (h : Value.Like L v v') :
    BuiltLike Eq (buildExports v) (buildExports v') := by
  have hfault : BuiltLike (Eq : List String → List String → Prop)
      (.error (.malformedExports v)) (.error (.malformedExports v')) :=
    .error (.malformedExports (h.text_eq hL))
  have hitems := h.elements?
  unfold buildExports
  generalize v.elements? = items, v'.elements? = items' at hitems
  -- the exports are a list that `export` begins; anything else is the same fault on both sides
  cases hitems with
  | none => exact hfault
  | some hs =>
    cases hs with
    | nil => exact hfault
    | cons hh hs =>
      cases hh with
      | symbol head =>
        simp only
        split
        · exact namesIn_like hL "export" hs
        · exact hfault
      | _ => exact hfault

include hL hsub in
theorem buildModule_like (h : List.Forall₂ (Value.Like L) vs vs') :
    BuiltLike (Expr.Like L) (buildModule sub vs) (buildModule sub vs') := by
  cases h with
  | nil => exact .error (.refl _)
  | cons hn h =>
    cases h with
    | nil => exact .error (.refl _)
    | cons he h =>
      refine (nameIn_like hL "module" hn).bind ?_
      rintro name _ rfl
      refine (buildExports_like hL he).bind ?_
      rintro exports _ rfl
      exact (buildEach_like hsub h).bind fun body body' hbody => .ok (.module name exports hbody)

theorem ofList_like (h : List.Forall₂ (Value.Like L) vs vs') :
    Value.Like L (Value.ofList vs) (Value.ofList vs') := by
  induction h with
  | nil => exact .nil
  | cons hv _ ih => exact .pair none hv ih

include hL in
theorem buildImportSpec_like {whole whole' : Value} (hw : Value.Like L whole whole')
    (h : List.Forall₂ (Value.Like L) vs vs') :
    BuiltLike Eq (buildImportSpec whole vs) (buildImportSpec whole' vs') := by
  have hfault : BuiltLike (Eq : ImportSpec → ImportSpec → Prop)
      (.error (.malformedImport whole)) (.error (.malformedImport whole')) :=
    .error (.malformedImport (hw.text_eq hL))
  -- an import has nothing after its target, or a list of names, or two symbols
  cases h with
  | nil => exact .ok rfl
  | @cons v v' _ _ hv h =>
    cases h with
    | nil =>
      have hitems := hv.elements?
      have hnames := FormError.Alike.malformedImport (hv.text_eq hL)
      simp only [buildImportSpec]
      generalize v.elements? = items, v'.elements? = items' at hitems
      cases hitems with
      | none => exact .error hnames
      | some hs =>
        refine (namesIn_like hL "import" hs).map ?_
        rintro names _ rfl
        rfl
    | cons hn h =>
      cases h with
      | nil =>
        cases hv with
        | symbol k =>
          cases hn with
          | symbol name =>
            simp only [buildImportSpec]
            split
            · exact .ok rfl
            · exact hfault
          | _ => exact hfault
        | _ => exact hfault
      | cons _ _ => cases hv <;> cases hn <;> exact hfault

include hL in
theorem buildImport_like (h : List.Forall₂ (Value.Like L) vs vs') :
    BuiltLike (Expr.Like L) (buildImport vs) (buildImport vs') := by
  have hfault : BuiltLike (Expr.Like L) (.error (.malformedImport (Value.ofList vs)))
      (.error (.malformedImport (Value.ofList vs'))) :=
    .error (.malformedImport ((ofList_like h).text_eq hL))
  cases h with
  | nil => exact hfault
  | cons hv h =>
    cases hv with
    | symbol s =>
      refine (buildImportSpec_like hL (ofList_like (.cons (.symbol s) h)) h).map ?_
      rintro spec _ rfl
      exact .importFrom (.name s) spec
    | string p =>
      refine (buildImportSpec_like hL (ofList_like (.cons (.string p) h)) h).map ?_
      rintro spec _ rfl
      exact .importFrom (.path p) spec
    | _ => exact hfault

theorem buildMacroexpand_like (h : List.Forall₂ (Value.Like L) vs vs') :
    BuiltLike (Expr.Like L) (buildMacroexpand vs) (buildMacroexpand vs') := by
  have hlen := h.length_eq
  cases h with
  | nil => exact .error (.refl _)
  | cons hv hs =>
    cases hs with
    | nil => exact .ok (.macroexpand hv)
    | cons _ _ => exact .error (.wrongCount _ hlen)

include hsub in
theorem buildCall_like (hv : Value.Like L v v') (h : List.Forall₂ (Value.Like L) vs vs') :
    BuiltLike (Expr.Like L) (buildCall sub v vs) (buildCall sub v' vs') := by
  have hargs := buildEach_like hsub h
  unfold buildCall
  refine (hsub hv).map fun f f' hf => ?_
  generalize buildEach sub vs = xs, buildEach sub vs' = xs' at hargs
  cases hargs with
  | ok ha => exact .call hf ha h
  | error he => exact .deferred hf he h

include hL hsub in
theorem buildSpecial_like (h : List.Forall₂ (Value.Like L) vs vs') (k : Keyword) :
    BuiltLike (Expr.Like L) (buildSpecial sub vs k) (buildSpecial sub vs' k) := by
  cases k with
  | quote => exact buildWrapper_like .quote .quote h
  | quasiquote => exact buildWrapper_like .quasiquote .quasiquote h
  | unquote => exact buildWrapper_like .unquote .unquote h
  | unquoteSplicing => exact buildWrapper_like .unquoteSplicing .unquoteSplicing h
  | ite => exact buildIte_like hsub h
  | and => exact (buildEach_like hsub h).map fun _ _ hs => .and hs
  | or => exact (buildEach_like hsub h).map fun _ _ hs => .or hs
  | sequence => exact (buildEach_like hsub h).map fun _ _ hs => .sequence hs
  | lambda => exact buildLambda_like hL hsub h
  | letIn kind => exact buildLet_like hL hsub kind h
  | define => exact buildDefine_like hL hsub "define" h
  | setq => exact buildDefine_like hL hsub "setq" h
  | definition kind => exact buildDefinition_like hL hsub kind h
  | module => exact buildModule_like hL hsub h
  | importFrom => exact buildImport_like hL h
  | macroexpand => exact buildMacroexpand_like h

/-! ## §4. Layers -/

include hL hsub in
theorem buildList_like (hv : Value.Like L v v') (h : List.Forall₂ (Value.Like L) vs vs') :
    BuiltLike (Expr.Like L) (buildList sub v vs) (buildList sub v' vs') := by
  have hcall := buildCall_like hsub hv h
  cases hv with
  | symbol s =>
    simp only [buildList]
    split
    · exact buildSpecial_like hL hsub h _
    · exact hcall
  | _ => exact hcall

include hL hsub in
theorem buildStep_like : KeepsLikeness L (buildStep sub) := by
  intro v v' h
  have ht := h.text_eq hL
  cases h with
  | symbol s => exact .ok (.var s)
  | @pair cell a a' d d' ha hd =>
    have hargs := hd.elements?
    simp only [buildStep]
    generalize d.elements? = args, d'.elements? = args' at hargs
    cases hargs with
    | none => exact .error (.improperList ht)
    | some hs => exact buildList_like hL hsub ha hs
  | nil => exact .ok (.literal .nil)
  | unspecified => exact .ok (.literal .unspecified)
  | int n => exact .ok (.literal (.int n))
  | float x => exact .ok (.literal (.float x))
  | bool b => exact .ok (.literal (.bool b))
  | string s => exact .ok (.literal (.string s))
  | record cell name hn hv => exact .ok (.literal (.record cell name hn hv))
  | primitive op => exact .ok (.literal (.primitive op))
  | quote hv => exact .ok (.literal (.quote hv))
  | quasiquote hv => exact .ok (.literal (.quasiquote hv))
  | unquote hv => exact .ok (.literal (.unquote hv))
  | unquoteSplicing hv => exact .ok (.literal (.unquoteSplicing hv))
  | closure hc => exact .ok (.literal (.closure hc))
  | expander hm => exact .ok (.literal (.expander hm))
  | module hm => exact .ok (.literal (.module hm))

include hL in
theorem buildUpTo_like (n : Nat) : KeepsLikeness L (buildUpTo n) := by
  induction n with
  | zero =>
    intro v v' h
    exact .error (.improperList (h.text_eq hL))
  | succ n ih => exact buildStep_like hL ih

include hL in
/-- From data alike come expressions alike, or faults alike. -/
theorem build_like : KeepsLikeness L build := by
  intro v v' h
  unfold build
  rw [← h.height_eq]
  exact buildUpTo_like hL _ h

end

end Expr

end TinyLisp
