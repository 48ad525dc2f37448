import ModuleAtlas.CommandLine.Program
import ModuleAtlas.Config.Reading
import ModuleAtlas.Diagram
import ModuleAtlas.Files.Change
import ModuleAtlas.Glob.Filter
import ModuleAtlas.Graph.Basic
import ModuleAtlas.Graph.NodeStore
import ModuleAtlas.Json.Data
import ModuleAtlas.Label
import ModuleAtlas.Main
import ModuleAtlas.Project.Basic
import ModuleAtlas.Project.Memory
import ModuleAtlas.Proofs.CommandLine.Entries
import ModuleAtlas.Proofs.CommandLine.Printing
import ModuleAtlas.Proofs.Diagram.Faithful
import ModuleAtlas.Proofs.Discovery.Repository
import ModuleAtlas.Proofs.Discovery.Selection
import ModuleAtlas.Proofs.Files.Follow
import ModuleAtlas.Proofs.Files.Making
import ModuleAtlas.Proofs.Files.Writing
import ModuleAtlas.Proofs.Graph.NodeStore
import ModuleAtlas.Proofs.Identity
import ModuleAtlas.Proofs.Json.Invariants
import ModuleAtlas.Proofs.Json.Leniency
import ModuleAtlas.Proofs.Label
import ModuleAtlas.Proofs.ModuleId
import ModuleAtlas.Proofs.Path.Parent
import ModuleAtlas.Proofs.Project.Calls
import ModuleAtlas.Proofs.ProjectRoot
import ModuleAtlas.Proofs.Resolver
import ModuleAtlas.Proofs.Resolver.BaseDirectory
import ModuleAtlas.Proofs.Resolver.Probing
import ModuleAtlas.Proofs.Run.Kept
import ModuleAtlas.Proofs.Run.Modes
import ModuleAtlas.Proofs.Run.Order
import ModuleAtlas.Proofs.Run.Outputs
import ModuleAtlas.Proofs.Run.Prefix
import ModuleAtlas.Proofs.Run.Project
import ModuleAtlas.Proofs.Run.Recursion
import ModuleAtlas.Proofs.Source.Decoding
import ModuleAtlas.Proofs.Source.Escapes
import ModuleAtlas.Proofs.Source.Extraction
import ModuleAtlas.Proofs.Source.Inert
import ModuleAtlas.Proofs.Source.Lines
import ModuleAtlas.Proofs.Source.Literals
import ModuleAtlas.Proofs.Source.Search
import ModuleAtlas.Proofs.Source.Writing
import ModuleAtlas.Proofs.Walk.Account
import ModuleAtlas.Proofs.Walk.Leaves
import ModuleAtlas.Proofs.Walk.ReachableGraph
import ModuleAtlas.Proofs.Walk.Strict
import ModuleAtlas.Proofs.Walk.Wider
import ModuleAtlas.Run
import ModuleAtlas.Slug
import ModuleAtlas.Source.Node
import ModuleAtlas.TsConfig
