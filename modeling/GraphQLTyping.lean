import GraphQLTyping.Schema.Build
import GraphQLTyping.Typing.Document
import GraphQLTyping.Typing.Handler
import GraphQLTyping.Proofs.Pass.Step
import GraphQLTyping.Proofs.InputLists.Resolution
import GraphQLTyping.Proofs.InputLists.History
import GraphQLTyping.Proofs.Pass.Places
import GraphQLTyping.Proofs.Pass.Records
import GraphQLTyping.Proofs.Pass.Outcome
import GraphQLTyping.Proofs.Pass.Run
import GraphQLTyping.Proofs.Pass.Walks
import GraphQLTyping.Proofs.Pass.Discipline
import GraphQLTyping.Proofs.Pass.FirstFault
import GraphQLTyping.Proofs.Pass.Enclosing
import GraphQLTyping.Proofs.Pass.Ledger
import GraphQLTyping.Proofs.Pass.Completion
import GraphQLTyping.Proofs.Pass.Found
import GraphQLTyping.Proofs.Typing.Unfolding
import GraphQLTyping.Proofs.Document.Nodes
import GraphQLTyping.Proofs.Pass.Mirror
import GraphQLTyping.Proofs.InputLists.Paths
import GraphQLTyping.Proofs.Schema.Built
import GraphQLTyping.Proofs.Validation.Assumptions
import GraphQLTyping.Proofs.Validation.Sufficiency
import GraphQLTyping.Proofs.InputLists.Agreement
import GraphQLTyping.Proofs.Pass.Moved
import GraphQLTyping.Proofs.Pass.Independence
import GraphQLTyping.Proofs.Document.Skeleton
import GraphQLTyping.Proofs.Pass.Alike
import GraphQLTyping.Proofs.Pass.Skeleton
import GraphQLTyping.Proofs.Pass.Effect
import GraphQLTyping.Proofs.Pass.Session
import GraphQLTyping.Proofs.Pass.WellFormed
import GraphQLTyping.Proofs.InputLists.Events
import GraphQLTyping.Proofs.Pass.Log
import GraphQLTyping.Proofs.Pass.Account
import GraphQLTyping.Proofs.Pass.Variables
import GraphQLTyping.Proofs.InputLists.Nesting
import GraphQLTyping.Proofs.InputLists.WhitePaths
import GraphQLTyping.Proofs.Pass.Resolved
import GraphQLTyping.Proofs.InputLists.Order
import GraphQLTyping.Proofs.Schema.Extension
import GraphQLTyping.Proofs.InputLists.Outlines
import GraphQLTyping.Proofs.Pass.Extension
import GraphQLTyping.Proofs.Pass.Alone
import GraphQLTyping.Proofs.Pass.Innermost
import GraphQLTyping.Proofs.Pass.Failure
import GraphQLTyping.Proofs.TypeRef.Layers
