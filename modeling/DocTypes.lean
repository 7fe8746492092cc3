import DocTypes.Main
import DocTypes.Session
import DocTypes.Proofs.Bracket.Nesting
import DocTypes.Proofs.Bracket.Pieces
import DocTypes.Proofs.Outline.Form
import DocTypes.Proofs.Outline.Fill
import DocTypes.Proofs.Grammar
import DocTypes.Proofs.Grammar.Completeness
import DocTypes.Proofs.Grammar.Soundness
import DocTypes.Proofs.Scope
import DocTypes.Proofs.Grammar.Exact
import DocTypes.Proofs.Pattern.WellFormed
import DocTypes.Proofs.RoundTrip
import DocTypes.Proofs.Pattern.Built
import DocTypes.Proofs.Text.Lines
import DocTypes.Proofs.Session.Contracts
import DocTypes.Proofs.Growth
import DocTypes.Proofs.Memory
import DocTypes.Proofs.Session.Calls
import DocTypes.Proofs.Session.Freshness
import DocTypes.Proofs.Text.Order
import DocTypes.Proofs.Outline.Findings
import DocTypes.Proofs.Session.Reports
import DocTypes.Proofs.Catalog.Registration
import DocTypes.Proofs.Catalog.History
import DocTypes.Proofs.Catalog.Order
import DocTypes.Proofs.Pattern.Agreement
import DocTypes.Proofs.Outline.Lockstep
import DocTypes.Proofs.Null
import DocTypes.Proofs.Outline.Names
import DocTypes.Proofs.Catalog.Extension
import DocTypes.Proofs.DocComment
import DocTypes.Proofs.Outline.Within
import DocTypes.Proofs.Pattern.Optional
import DocTypes.Proofs.Faults
import DocTypes.Proofs.Reactions
import DocTypes.Proofs.Session.Recall
import DocTypes.Proofs.Bracket.Closing
import DocTypes.Proofs.Bracket.Cuts
import DocTypes.Proofs.Memo
import DocTypes.Proofs.Questions
import DocTypes.Proofs.DocComment.Last
import DocTypes.Proofs.Contract.Keywords
import DocTypes.Proofs.Class
import DocTypes.Proofs.Pattern.Likeness
import DocTypes.Proofs.Value.Equality
import DocTypes.Proofs.Value.Members
import DocTypes.Proofs.Pattern.Equality
import DocTypes.Proofs.Session.Faithful
import DocTypes.Proofs.Contract.Drafting
import DocTypes.Proofs.Value.Parts
import DocTypes.Proofs.Value.Equivalence
import DocTypes.Proofs.Value.Entries
import DocTypes.Proofs.Pattern.Reordering
import DocTypes.Proofs.Pattern.Replacement
import DocTypes.Proofs.Pattern.Rewriting
import DocTypes.Proofs.Class.Order
import DocTypes.Proofs.Text.Numeral
import DocTypes.Proofs.Text.Quoted
import DocTypes.Proofs.Value.Text
import DocTypes.Proofs.Binary64
import DocTypes.Proofs.Json.Document
import DocTypes.Proofs.Json.Reader
import DocTypes.Proofs.Json.Conversion
import DocTypes.Proofs.Command.Options
import DocTypes.Proofs.Value.Firsts
import DocTypes.Proofs.Bracket.Rejoining
