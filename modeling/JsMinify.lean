import JsMinify.Lexer.Session
import JsMinify.Main
import JsMinify.Node.Build
import JsMinify.Node.Edit
import JsMinify.Node.Observe
import JsMinify.Proofs.Lexer.Blanks
import JsMinify.Proofs.Lexer.Failures
import JsMinify.Proofs.Lexer.Patterns
import JsMinify.Proofs.Lexer.Single
import JsMinify.Proofs.Minify
import JsMinify.Proofs.Node.Omissions
import JsMinify.Proofs.Node.Operations
import JsMinify.Proofs.Node.Pairing
import JsMinify.Proofs.Node.Stacked
import JsMinify.Proofs.Parser.Branches
import JsMinify.Proofs.Parser.Clauses
import JsMinify.Proofs.Parser.Holes
import JsMinify.Proofs.Parser.Posts
import JsMinify.Proofs.Pretty
import JsMinify.Proofs.Scope.Binders
import JsMinify.Proofs.Scope.Independent
import JsMinify.Proofs.Scope.NewNames
import JsMinify.Proofs.Workload
import JsMinify.Scope.Listing
