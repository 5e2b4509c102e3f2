import EndpointCompiler.Source.Parser
import EndpointCompiler.References
import EndpointCompiler.Handler.Expansion
import EndpointCompiler.Synthesis.Operation
import EndpointCompiler.Checking.Program
import EndpointCompiler.Image.Codec
import EndpointCompiler.FileTree
import EndpointCompiler.Document.Yaml.Reader
import EndpointCompiler.Settings
import EndpointCompiler.Loading
import EndpointCompiler.Handler.Dispatcher
import EndpointCompiler.Service
import EndpointCompiler.LogSettings
import EndpointCompiler.Handler.DefinitionFile
import EndpointCompiler.Main
import EndpointCompiler.Proofs.Compilation.Modes
import EndpointCompiler.Proofs.Source.Attributes
import EndpointCompiler.Proofs.Source.Bodies
import EndpointCompiler.Proofs.Synthesis.Groups
import EndpointCompiler.Proofs.Synthesis.Names
import EndpointCompiler.Proofs.Synthesis.Parsing
import EndpointCompiler.Proofs.Handler.Definition
import EndpointCompiler.Proofs.Synthesis.Run
import EndpointCompiler.Proofs.Synthesis.Faithful
import EndpointCompiler.Proofs.References
import EndpointCompiler.Proofs.Checking.Finds
import EndpointCompiler.Proofs.Build.Declared
import EndpointCompiler.Proofs.Build.Findings
import EndpointCompiler.Proofs.Build.Units
import EndpointCompiler.Proofs.Build.Diagnostics
import EndpointCompiler.Proofs.Compilation.Loaded
import EndpointCompiler.Proofs.Endpoint.Binding
import EndpointCompiler.Proofs.Endpoint.Requests
import EndpointCompiler.Proofs.Endpoint.Forms
import EndpointCompiler.Proofs.Endpoint.Wire
import EndpointCompiler.Proofs.Image.Objects
import EndpointCompiler.Proofs.Image.Streams
import EndpointCompiler.Proofs.Build.Generated
import EndpointCompiler.Proofs.Build.Serving
import EndpointCompiler.Proofs.Synthesis.Supply
import EndpointCompiler.Proofs.Build.Typing
import EndpointCompiler.Proofs.Build.Accepted
import EndpointCompiler.Proofs.Build.Readable
import EndpointCompiler.Proofs.Build.Success
import EndpointCompiler.Proofs.References.Closure
import EndpointCompiler.Proofs.Checking.Extension
import EndpointCompiler.Proofs.Compilation.Inclusion
import EndpointCompiler.Proofs.Source.Bare
import EndpointCompiler.Proofs.Checking.Bare
import EndpointCompiler.Proofs.Compilation.Layout
import EndpointCompiler.Proofs.Checking.Declarations
import EndpointCompiler.Proofs.Checking.Ignored
import EndpointCompiler.Proofs.Compilation.Completeness
import EndpointCompiler.Proofs.Compilation.Routes
import EndpointCompiler.Proofs.Source.Derivations
import EndpointCompiler.Proofs.Source.Acceptance
import EndpointCompiler.Proofs.Source.Recognition
import EndpointCompiler.Proofs.Source.Delimiting
import EndpointCompiler.Proofs.Routing.BestMatch
import EndpointCompiler.Proofs.Routing.Table
import EndpointCompiler.Proofs.Text.Percent
import EndpointCompiler.Proofs.Handler.Pieces
import EndpointCompiler.Proofs.Handler.Grammar
import EndpointCompiler.Proofs.Handler.Expansion
import EndpointCompiler.Proofs.Routing.Templates
import EndpointCompiler.Proofs.Registry
import EndpointCompiler.Proofs.Service
import EndpointCompiler.Proofs.Synthesis.Acceptance
import EndpointCompiler.Proofs.Compilation.Places
import EndpointCompiler.Proofs.Image.Dangling
import EndpointCompiler.Proofs.Build.Distinct
import EndpointCompiler.Proofs.Compilation.Symbols
import EndpointCompiler.Proofs.Compilation.Exports
import EndpointCompiler.Proofs.Compilation.Reports
import EndpointCompiler.Proofs.Source.Tiling
import EndpointCompiler.Proofs.Synthesis.Lexing
import EndpointCompiler.Proofs.Synthesis.Allocation
