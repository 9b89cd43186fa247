import QuorumChain.Admission.Basic
import QuorumChain.Admission.Certificate
import QuorumChain.Admission.Rejection
import QuorumChain.Chain.Block
import QuorumChain.Chain.Creation
import QuorumChain.Chain.Execution
import QuorumChain.Chain.ExtraData
import QuorumChain.Chain.Fault
import QuorumChain.Chain.HeaderVote
import QuorumChain.Chain.Ledger
import QuorumChain.Chain.Rules
import QuorumChain.Cli.Invocation
import QuorumChain.Cli.Run
import QuorumChain.Committee.Basic
import QuorumChain.Committee.Cache
import QuorumChain.Committee.Election
import QuorumChain.Committee.Requests
import QuorumChain.Config.Basic
import QuorumChain.Config.Source
import QuorumChain.Crypto.Blake3
import QuorumChain.Crypto.Ed25519
import QuorumChain.Crypto.Edwards25519
import QuorumChain.Crypto.Sha512
import QuorumChain.Data.Backlog
import QuorumChain.Data.Identifier
import QuorumChain.Data.Octets
import QuorumChain.Data.SortedMap
import QuorumChain.Devnet.Agreement
import QuorumChain.Devnet.Run
import QuorumChain.Json.Raw
import QuorumChain.Json.Token
import QuorumChain.Json.Value
import QuorumChain.Keys.Basic
import QuorumChain.Keys.Keystore
import QuorumChain.Main
import QuorumChain.Message.Basic
import QuorumChain.Message.Format
import QuorumChain.Message.Signing
import QuorumChain.Message.View
import QuorumChain.Node.Basic
import QuorumChain.Node.Engine
import QuorumChain.Node.Instance
import QuorumChain.Node.Setup
import QuorumChain.Proofs.Admission.Accountability
import QuorumChain.Proofs.Admission.Certificate
import QuorumChain.Proofs.Admission.Message
import QuorumChain.Proofs.Assembly.Agreement
import QuorumChain.Proofs.Assembly.Authenticity
import QuorumChain.Proofs.Assembly.Basic
import QuorumChain.Proofs.Assembly.Delivery
import QuorumChain.Proofs.Assembly.Locking
import QuorumChain.Proofs.Assembly.Opening
import QuorumChain.Proofs.Assembly.Progress
import QuorumChain.Proofs.Assembly.Script
import QuorumChain.Proofs.Assembly.Sealing
import QuorumChain.Proofs.Chain.Attribution
import QuorumChain.Proofs.Chain.Creation
import QuorumChain.Proofs.Chain.ExtraData
import QuorumChain.Proofs.Chain.Identity
import QuorumChain.Proofs.Chain.Ledger
import QuorumChain.Proofs.Chain.SameBlock
import QuorumChain.Proofs.Chain.Sealing
import QuorumChain.Proofs.Committee.Cache
import QuorumChain.Proofs.Committee.Evolution
import QuorumChain.Proofs.Committee.History
import QuorumChain.Proofs.Committee.Quorum
import QuorumChain.Proofs.Committee.Requests
import QuorumChain.Proofs.Committee.Rotation
import QuorumChain.Proofs.Data.Backlog
import QuorumChain.Proofs.Data.Except
import QuorumChain.Proofs.Data.PriorityList
import QuorumChain.Proofs.Data.SortedMap
import QuorumChain.Proofs.Devnet.Agreement
import QuorumChain.Proofs.Engine.Basic
import QuorumChain.Proofs.Engine.Pace
import QuorumChain.Proofs.Json.Quoted
import QuorumChain.Proofs.Keys.Keystore
import QuorumChain.Proofs.Life.Adoption
import QuorumChain.Proofs.Life.Basic
import QuorumChain.Proofs.Life.Chronicle
import QuorumChain.Proofs.Life.Early
import QuorumChain.Proofs.Life.Forgery
import QuorumChain.Proofs.Life.Foundation
import QuorumChain.Proofs.Life.Observer
import QuorumChain.Proofs.Life.Position
import QuorumChain.Proofs.Life.Repetition
import QuorumChain.Proofs.Life.Signer
import QuorumChain.Proofs.Life.Storage
import QuorumChain.Proofs.Life.Survival
import QuorumChain.Proofs.Life.Timer
import QuorumChain.Proofs.Message.Attestation
import QuorumChain.Proofs.Message.Canonical
import QuorumChain.Proofs.Message.Capacity
import QuorumChain.Proofs.Message.Layout
import QuorumChain.Proofs.Message.Separation
import QuorumChain.Proofs.Message.Writing
import QuorumChain.Proofs.Node.Ballot
import QuorumChain.Proofs.Node.Certification
import QuorumChain.Proofs.Node.Continuity
import QuorumChain.Proofs.Node.Derivation
import QuorumChain.Proofs.Node.Effect
import QuorumChain.Proofs.Node.Endurance
import QuorumChain.Proofs.Node.Equivocation
import QuorumChain.Proofs.Node.Evidence
import QuorumChain.Proofs.Node.Four
import QuorumChain.Proofs.Node.Handover
import QuorumChain.Proofs.Node.Import
import QuorumChain.Proofs.Node.Invariant
import QuorumChain.Proofs.Node.Later
import QuorumChain.Proofs.Node.Linkage
import QuorumChain.Proofs.Node.Lock
import QuorumChain.Proofs.Node.Log
import QuorumChain.Proofs.Node.Move
import QuorumChain.Proofs.Node.Quiescence
import QuorumChain.Proofs.Node.Record
import QuorumChain.Proofs.Node.Reproposal
import QuorumChain.Proofs.Node.Response
import QuorumChain.Proofs.Node.Tally
import QuorumChain.Proofs.Text.Hex
import QuorumChain.Proofs.Text.Utf8
import QuorumChain.Proofs.Wire.Lawful
import QuorumChain.Report.Chain
import QuorumChain.Report.Config
import QuorumChain.Report.Devnet
import QuorumChain.Report.Engine
import QuorumChain.Report.Error
import QuorumChain.Report.Keys
import QuorumChain.Report.Network
import QuorumChain.Report.Node
import QuorumChain.Round.Basic
import QuorumChain.Round.Change
import QuorumChain.Round.Timeout
import QuorumChain.Simulation.Cast
import QuorumChain.Simulation.Chain
import QuorumChain.Simulation.Clock
import QuorumChain.Simulation.Execution
import QuorumChain.Simulation.Network
import QuorumChain.Simulation.OpenScheme
import QuorumChain.Text.Blank
import QuorumChain.Text.Decimal
import QuorumChain.Text.Hex
import QuorumChain.Text.Quoted
import QuorumChain.Text.Visible
import QuorumChain.Toml.Document
import QuorumChain.Toml.Scalar
import QuorumChain.Toml.Text
import QuorumChain.Toml.Value
import QuorumChain.Wire.Format
