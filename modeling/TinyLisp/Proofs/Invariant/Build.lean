import TinyLisp.Proofs.Building
import TinyLisp.Proofs.Invariant.Node

/-!
# Building keeps nodes good

An expression built from a datum contains only values that the datum contained, and wrappers
around them. So if every node of the datum has a property that plain nodes have, every value in
the expression has it throughout (`Expr.build_every`).
-/

namespace TinyLisp.Expr

variable {N : Value → Prop} (hN : ∀ u, Value.Plain u → N u)

include hN

theorem composes_every : Composes (Every N) (Every N) where
  missing := every_literal.2 (Value.every_atom hN rfl trivial)
  body hes := every_sequence.2 hes
  ite hc ht he := every_ite.2 ⟨hc, ht, he⟩
  and hes := every_and.2 hes
  or hes := every_or.2 hes
  sequence hes := every_sequence.2 hes
  letIn hbs hb := every_letIn.2 ⟨hbs, hb⟩
  lambda _ hb := every_lambda.2 hb
  define he := every_define.2 he
  definition _ hb := every_definition.2 hb
  module hes := every_module.2 hes
  importFrom target spec := every_importFrom target spec

theorem quotes_every : Quotes (Value.Every N) (Every N) where
  quote hv := every_literal.2 (Value.every_quote.2 ⟨hN _ trivial, hv⟩)
  quasiquote hv := every_literal.2 (Value.every_quasiquote.2 ⟨hN _ trivial, hv⟩)
  unquote hv := every_literal.2 (Value.every_unquote.2 ⟨hN _ trivial, hv⟩)
  unquoteSplicing hv := every_literal.2 (Value.every_unquoteSplicing.2 ⟨hN _ trivial, hv⟩)
  macroexpand hv := every_macroexpand.2 hv

theorem buildRule_every : BuildRule (Value.Every N) (Every N) where
  descends hv hitems := hv.elements? hitems
  pair hv := (Value.every_pair.1 hv).2
  composes := composes_every hN
  quotes := quotes_every hN
  var s := every_var s
  literal hv _ _ := every_literal.2 hv
  call _ _ hf hforms _ hargs := every_call.2 ⟨hf, hargs, hforms⟩
  deferred _ _ hf hforms _ := every_deferred.2 ⟨hf, hforms⟩

/-- An expression built from a good datum contains good values only. -/
theorem build_every {v : Value} (h : v.Every N) {e : Expr} (he : build v = .ok e) : e.Every N :=
  build_yields (buildRule_every hN) h e he

end TinyLisp.Expr
