import TinyLisp.Expr.Basic

/-!
# From data to expressions

`Expr.build` recognises the special forms by their first symbol and checks their shape; any
other list is a call, a symbol is a variable, and everything else stands for itself.

`buildStep` describes one layer: given a way to build the parts, it builds the whole. `build`
ties the knot by the height of the datum, of which every part has a smaller one
(`buildStep_congr`), so that `build` itself solves the equation `build v = buildStep build v`
(`build_eq`).
-/

namespace TinyLisp

/-! ## §1. Keywords -/

/-- The words that introduce a special form. -/
inductive Keyword
  | quote | quasiquote | unquote | unquoteSplicing
  | ite | and | or | sequence | lambda
  | letIn (kind : LetKind)
  | define | setq
  | definition (kind : DefinitionKind)
  | module | importFrom | macroexpand
  deriving Repr, DecidableEq

namespace Keyword

/-- How a keyword is spelt. -/
def name : Keyword → String
  | quote => "quote"
  | quasiquote => "quasiquote"
  | unquote => "unquote"
  | unquoteSplicing => "unquote-splicing"
  | ite => "if"
  | and => "and"
  | or => "or"
  | sequence => "begin"
  | lambda => "lambda"
  | letIn kind => kind.keyword
  | define => "define"
  | setq => "setq"
  | definition kind => kind.keyword
  | module => "module"
  | importFrom => "import"
  | macroexpand => "macroexpand"

/-- Every keyword, once. -/
def all : List Keyword :=
  [quote, quasiquote, unquote, unquoteSplicing, ite, and, or, sequence, lambda,
   letIn .parallel, letIn .sequential, letIn .recursive, define, setq,
   definition .function, definition .expander, module, importFrom, macroexpand]

/-- The keyword with a spelling. -/
def ofName? (s : String) : Option Keyword :=
  all.find? fun k => k.name = s

theorem mem_all (k : Keyword) : k ∈ all := by
  rcases k with _ | _ | _ | _ | _ | _ | _ | _ | _ | (_ | _ | _) | _ | _ | (_ | _) | _ | _ | _ <;>
    decide

/-- A keyword is found under its own spelling. -/
theorem ofName?_name (k : Keyword) : ofName? k.name = some k := by
  rcases k with _ | _ | _ | _ | _ | _ | _ | _ | _ | (_ | _ | _) | _ | _ | (_ | _) | _ | _ | _ <;>
    rfl

theorem name_of_ofName? {s : String} {k : Keyword} (h : ofName? s = some k) : k.name = s := by
  simpa using List.find?_some h

end Keyword

/-! ## §2. One layer -/

namespace Expr

/-- A way to build the parts of a form. -/
abbrev Builder := Value → Except FormError Expr

/-- Builds forms from left to right, up to the first fault. -/
def buildEach (sub : Builder) : List Value → Except FormError (List Expr)
  | [] => .ok []
  | v :: vs =>
    match sub v with
    | .error e => .error e
    | .ok x =>
      match buildEach sub vs with
      | .error e => .error e
      | .ok xs => .ok (x :: xs)

/-- The name in a place where only a symbol will do. -/
def nameIn (form : String) : Value → Except FormError String
  | .symbol s => .ok s
  | v => .error (.notASymbol form v)

/-- The names in places where only symbols will do. -/
def namesIn (form : String) : List Value → Except FormError (List String)
  | [] => .ok []
  | v :: vs => do
    let x ← nameIn form v
    let xs ← namesIn form vs
    pure (x :: xs)

/-- The names of parameters, which must be symbols. -/
def paramNames (form : String) : List Value → Except FormError (List String)
  | [] => .ok []
  | .symbol s :: vs => (paramNames form vs).map (s :: ·)
  | v :: _ => .error (.badParams form (.notASymbol v.text))

/-- A parameter list. -/
def buildParams (form : String) (v : Value) : Except FormError Params :=
  match v.elements? with
  | none => .error (.badParams form (.notASymbol v.text))
  | some items => do
    let names ← paramNames form items
    (Params.ofNames names).mapError (.badParams form)

/-- The forms of a body; several are evaluated in sequence. -/
def buildBody (sub : Builder) (form : String) : List Value → Except FormError Expr
  | [] => .error (.wrongCount form 0)
  | [v] => sub v
  | vs => (buildEach sub vs).map .sequence

/-- A form with one part, which it wraps. -/
def buildWrapper (k : Keyword) (wrap : Value → Value) : List Value → Except FormError Expr
  | [v] => .ok (.literal (wrap v))
  | args => .error (.wrongCount k.name args.length)

/-- A conditional. Its last part, which may be missing, is built first. -/
def buildIte (sub : Builder) : List Value → Except FormError Expr
  | [c, t] => do
    let condition ← sub c
    let consequent ← sub t
    pure (.ite condition consequent (.literal .nil))
  | [c, t, e] => do
    let alternative ← sub e
    let condition ← sub c
    let consequent ← sub t
    pure (.ite condition consequent alternative)
  | args => .error (.wrongCount "if" args.length)

/-- One binding of a `let` form: a list of a symbol and a form. -/
def buildBinding (sub : Builder) (form : String) (v : Value) :
    Except FormError (String × Expr) :=
  match v.elements? with
  | some [.symbol name, init] => (sub init).map fun e => (name, e)
  | _ => .error (.malformedBinding form v)

/-- The bindings of a `let` form, up to the first fault. -/
def buildBindings (sub : Builder) (form : String) :
    List Value → Except FormError (List (String × Expr))
  | [] => .ok []
  | v :: vs =>
    match buildBinding sub form v with
    | .error e => .error e
    | .ok b =>
      match buildBindings sub form vs with
      | .error e => .error e
      | .ok bs => .ok (b :: bs)

/-- A `let` form. -/
def buildLet (sub : Builder) (kind : LetKind) : List Value → Except FormError Expr
  | bindings :: v :: vs =>
    match bindings.elements? with
    | none => .error (.malformedBinding kind.keyword bindings)
    | some items => do
      let bs ← buildBindings sub kind.keyword items
      let body ← buildBody sub kind.keyword (v :: vs)
      pure (.letIn kind bs body)
  | args => .error (.wrongCount kind.keyword args.length)

/-- An anonymous function. -/
def buildLambda (sub : Builder) : List Value → Except FormError Expr
  | params :: v :: vs => do
    let params ← buildParams "lambda" params
    let body ← buildBody sub "lambda" (v :: vs)
    pure (.lambda none params body)
  | args => .error (.wrongCount "lambda" args.length)

/-- A definition of a value, under either of its two keywords. -/
def buildDefine (sub : Builder) (form : String) : List Value → Except FormError Expr
  | [name, v] => do
    let name ← nameIn form name
    let value ← sub v
    pure (.define name value)
  | args => .error (.wrongCount form args.length)

/-- A definition with parameters. -/
def buildDefinition (sub : Builder) (kind : DefinitionKind) : List Value → Except FormError Expr
  | name :: params :: v :: vs => do
    let name ← nameIn kind.keyword name
    let params ← buildParams kind.keyword params
    let body ← buildBody sub kind.keyword (v :: vs)
    pure (.definition kind name params body)
  | args => .error (.wrongCount kind.keyword args.length)

/-- The names in an export list, which begins with the symbol `export`. -/
def buildExports (v : Value) : Except FormError (List String) :=
  match v.elements? with
  | some (.symbol head :: names) =>
    if head = "export" then namesIn "export" names else .error (.malformedExports v)
  | _ => .error (.malformedExports v)

/-- A module. -/
def buildModule (sub : Builder) : List Value → Except FormError Expr
  | name :: exports :: forms => do
    let name ← nameIn "module" name
    let exports ← buildExports exports
    let body ← buildEach sub forms
    pure (.module name exports body)
  | args => .error (.wrongCount "module" args.length)

/-- What an import brings in, by the parts after its target; `whole` are all its parts. -/
def buildImportSpec (whole : Value) : List Value → Except FormError ImportSpec
  | [] => .ok .all
  | [.symbol k, .symbol name] =>
    if k = ":as" then .ok (.renamed name) else .error (.malformedImport whole)
  | [names] =>
    match names.elements? with
    | some vs => (namesIn "import" vs).map .only
    | none => .error (.malformedImport names)
  | _ => .error (.malformedImport whole)

/-- An import. -/
def buildImport : List Value → Except FormError Expr
  | .symbol s :: spec =>
    (buildImportSpec (Value.ofList (.symbol s :: spec)) spec).map (.importFrom (.name s))
  | .string p :: spec =>
    (buildImportSpec (Value.ofList (.string p :: spec)) spec).map (.importFrom (.path p))
  | args => .error (.malformedImport (Value.ofList args))

/-- A request for an expansion. -/
def buildMacroexpand : List Value → Except FormError Expr
  | [form] => .ok (.macroexpand form)
  | args => .error (.wrongCount "macroexpand" args.length)

/-- A call. A fault among the arguments is kept, one in the callee is raised. -/
def buildCall (sub : Builder) (callee : Value) (forms : List Value) : Except FormError Expr :=
  (sub callee).map fun f =>
    match buildEach sub forms with
    | .ok args => .call f args forms
    | .error e => .deferred f e forms

/-- A special form, by its keyword and its parts. -/
def buildSpecial (sub : Builder) (args : List Value) : Keyword → Except FormError Expr
  | .quote => buildWrapper .quote .quote args
  | .quasiquote => buildWrapper .quasiquote .quasiquote args
  | .unquote => buildWrapper .unquote .unquote args
  | .unquoteSplicing => buildWrapper .unquoteSplicing .unquoteSplicing args
  | .ite => buildIte sub args
  | .and => (buildEach sub args).map .and
  | .or => (buildEach sub args).map .or
  | .sequence => (buildEach sub args).map .sequence
  | .lambda => buildLambda sub args
  | .letIn kind => buildLet sub kind args
  | .define => buildDefine sub "define" args
  | .setq => buildDefine sub "setq" args
  | .definition kind => buildDefinition sub kind args
  | .module => buildModule sub args
  | .importFrom => buildImport args
  | .macroexpand => buildMacroexpand args

/-- A list form, by its first element and the others. -/
def buildList (sub : Builder) (head : Value) (args : List Value) : Except FormError Expr :=
  match head with
  | .symbol s =>
    match Keyword.ofName? s with
    | some k => buildSpecial sub args k
    | none => buildCall sub head args
  | _ => buildCall sub head args

/-- The expression that a datum spells, given a way to build its parts. -/
def buildStep (sub : Builder) (v : Value) : Except FormError Expr :=
  match v with
  | .symbol s => .ok (.var s)
  | .pair _ a d =>
    match d.elements? with
    | none => .error (.improperList v)
    | some args => buildList sub a args
  | v => .ok (.literal v)

/-! ## §3. All layers -/

/-- Builds at most `n` layers. -/
def buildUpTo : Nat → Builder
  | 0 => fun v => .error (.improperList v)
  | n + 1 => buildStep (buildUpTo n)

/-- The expression that a datum spells. -/
def build (v : Value) : Except FormError Expr :=
  buildUpTo (v.height + 1) v

/-- Builds forms from left to right, up to the first fault. -/
def buildAll (vs : List Value) : Except FormError (List Expr) :=
  buildEach build vs

/-! ## §4. The equation of `build` -/

theorem buildEach_congr {f g : Builder} {vs : List Value} (h : ∀ v ∈ vs, f v = g v) :
    buildEach f vs = buildEach g vs := by
  induction vs with
  | nil => rfl
  | cons v vs ih =>
    simp only [buildEach, h v (by simp), ih fun w hw => h w (by simp [hw])]

theorem buildBody_congr {f g : Builder} {form : String} {vs : List Value}
    (h : ∀ v ∈ vs, f v = g v) : buildBody f form vs = buildBody g form vs := by
  match vs with
  | [] => rfl
  | [v] => exact h v (by simp)
  | v :: w :: vs => simp only [buildBody, buildEach_congr h]

theorem height_le_of_elements? {v : Value} {vs : List Value} (h : v.elements? = some vs)
    {a : Value} (ha : a ∈ vs) : a.height < v.height := by
  apply Value.height_lt_of_mem_spine
  rwa [Value.elements?_eq_some_iff.1 h]

theorem buildBindings_congr {f g : Builder} {form : String} {vs : List Value} {n : Nat}
    (h : ∀ v, v.height < n → f v = g v) (hvs : ∀ v ∈ vs, v.height < n) :
    buildBindings f form vs = buildBindings g form vs := by
  induction vs with
  | nil => rfl
  | cons v vs ih =>
    have hv : buildBinding f form v = buildBinding g form v := by
      unfold buildBinding
      split
      · next init hi =>
        have h1 := height_le_of_elements? hi (a := init) (by simp)
        have h2 := hvs v (by simp)
        rw [h init (by omega)]
      · rfl
    simp only [buildBindings, hv, ih fun w hw => hvs w (by simp [hw])]

theorem buildCall_congr {f g : Builder} {callee : Value} {forms : List Value}
    (h : ∀ v ∈ callee :: forms, f v = g v) :
    buildCall f callee forms = buildCall g callee forms := by
  have hforms : buildEach f forms = buildEach g forms :=
    buildEach_congr fun v hv => h v (by simp [hv])
  simp only [buildCall, h callee (by simp), hforms]

theorem buildSpecial_congr {f g : Builder} {args : List Value} {n : Nat}
    (h : ∀ v, v.height < n → f v = g v) (hargs : ∀ v ∈ args, v.height < n) (k : Keyword) :
    buildSpecial f args k = buildSpecial g args k := by
  have each : ∀ v ∈ args, f v = g v := fun v hv => h v (hargs v hv)
  cases k with
  | ite =>
    match args with
    | [] => rfl
    | [_] => rfl
    | [c, t] => simp only [buildSpecial, buildIte, each c (by simp), each t (by simp)]
    | [c, t, e] =>
      simp only [buildSpecial, buildIte, each c (by simp), each t (by simp), each e (by simp)]
    | _ :: _ :: _ :: _ :: _ => rfl
  | and => simp only [buildSpecial, buildEach_congr each]
  | or => simp only [buildSpecial, buildEach_congr each]
  | sequence => simp only [buildSpecial, buildEach_congr each]
  | lambda =>
    match args with
    | [] => rfl
    | [_] => rfl
    | p :: v :: vs =>
      simp only [buildSpecial, buildLambda]
      rw [buildBody_congr fun w hw => each w (by simp_all)]
  | letIn kind =>
    match args with
    | [] => rfl
    | [_] => rfl
    | bs :: v :: vs =>
      simp only [buildSpecial, buildLet]
      split
      · rfl
      · next items hi =>
        have hb := hargs bs (by simp)
        rw [buildBody_congr fun w hw => each w (by simp_all),
          buildBindings_congr h fun w hw => by
            have := height_le_of_elements? hi hw; omega]
  | define =>
    match args with
    | [] => rfl
    | [_] => rfl
    | [_, v] => simp only [buildSpecial, buildDefine, each v (by simp)]
    | _ :: _ :: _ :: _ => rfl
  | setq =>
    match args with
    | [] => rfl
    | [_] => rfl
    | [_, v] => simp only [buildSpecial, buildDefine, each v (by simp)]
    | _ :: _ :: _ :: _ => rfl
  | definition kind =>
    match args with
    | [] => rfl
    | [_] => rfl
    | [_, _] => rfl
    | _ :: _ :: v :: vs =>
      simp only [buildSpecial, buildDefinition]
      rw [buildBody_congr fun w hw => each w (by simp_all)]
  | module =>
    match args with
    | [] => rfl
    | [_] => rfl
    | _ :: _ :: vs =>
      have hbody : buildEach f vs = buildEach g vs :=
        buildEach_congr fun w hw => each w (by simp [hw])
      simp only [buildSpecial, buildModule, hbody]
  | _ => rfl

/-- One layer asks only for parts that nest less deeply than the whole. -/
theorem buildStep_congr {f g : Builder} {v : Value}
    (h : ∀ w, w.height < v.height → f w = g w) : buildStep f v = buildStep g v := by
  match v with
  | .pair cell a d =>
    simp only [buildStep]
    split
    · rfl
    · next args hargs =>
      have ha : a.height < (Value.pair cell a d).height := by simp only [Value.height]; omega
      have hd : ∀ w ∈ args, w.height < (Value.pair cell a d).height := fun w hw => by
        have := height_le_of_elements? hargs hw
        simp only [Value.height]; omega
      have hcall : buildCall f a args = buildCall g a args :=
        buildCall_congr fun w hw => h w (by
          rcases List.mem_cons.1 hw with rfl | hw
          · exact ha
          · exact hd w hw)
      unfold buildList
      split
      · split
        · exact buildSpecial_congr h hd _
        · exact hcall
      · exact hcall
  | .symbol _ => rfl
  | .nil | .unspecified | .int _ | .float _ | .bool _ | .string _ | .record .. | .primitive _
  | .quote _ | .quasiquote _ | .unquote _ | .unquoteSplicing _ | .closure _ | .expander _
  | .module _ => rfl

/-- Enough layers are enough. -/
theorem buildUpTo_congr {m n : Nat} {v : Value} (hm : v.height < m) (hn : v.height < n) :
    buildUpTo m v = buildUpTo n v := by
  induction m generalizing n v with
  | zero => omega
  | succ m ih =>
    cases n with
    | zero => omega
    | succ n => exact buildStep_congr fun w hw => ih (by omega) (by omega)

/-- An expression is built in layers, each from the expressions of its parts. -/
theorem build_eq (v : Value) : build v = buildStep build v :=
  buildStep_congr fun _ hw => buildUpTo_congr hw (by omega)

end Expr

end TinyLisp
