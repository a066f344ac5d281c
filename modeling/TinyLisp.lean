import TinyLisp.Expr.Form
import TinyLisp.Main
import TinyLisp.Proofs.Isolation
import TinyLisp.Proofs.Strategies
import TinyLisp.Proofs.Conversation
import TinyLisp.Proofs.RoundTrip
import TinyLisp.Proofs.Expansion
import TinyLisp.Proofs.Loading
import TinyLisp.Proofs.Placeholder
import TinyLisp.Proofs.Importing
import TinyLisp.Proofs.Growing
import TinyLisp.Proofs.Members
import TinyLisp.Proofs.Reimport
import TinyLisp.Proofs.Exports
import TinyLisp.Proofs.Registry
import TinyLisp.Proofs.Filling
import TinyLisp.Proofs.Freshness
import TinyLisp.Proofs.Sequential
import TinyLisp.Proofs.Continuation
import TinyLisp.Proofs.Grammar
import TinyLisp.Proofs.Rendering
import TinyLisp.Proofs.Coincidence
import TinyLisp.Proofs.Settling
import TinyLisp.Proofs.Application
import TinyLisp.Proofs.Prelude.Lists
import TinyLisp.Proofs.Parameters
import TinyLisp.Proofs.Identity
import TinyLisp.Proofs.Arithmetic
import TinyLisp.Proofs.Records
import TinyLisp.Proofs.Reading.Rounds
import TinyLisp.Proofs.Walking
import TinyLisp.Proofs.Captures
