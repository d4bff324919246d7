import ComputeKernel.Program.Session
import ComputeKernel.Proofs.Binding.Registers
import ComputeKernel.Proofs.Reading.Flow
import ComputeKernel.Proofs.Spacing.Translation
import ComputeKernel.Settings.File
import ComputeKernel.Settings.Json
import ComputeKernel.Settings.Locate
import ComputeKernel.Proofs.Typing.Judgments
import ComputeKernel.Proofs.Typing.Openness
import ComputeKernel.Proofs.Typing.WellTyped
import ComputeKernel.Proofs.Typing.Soundness
import ComputeKernel.Proofs.Binding.Layout
import ComputeKernel.Proofs.Binding.Packing
import ComputeKernel.Proofs.Parsing.Fidelity
import ComputeKernel.Proofs.Parsing.Precedence
import ComputeKernel.Proofs.Parsing.Types
import ComputeKernel.Proofs.Memory.Requests
import ComputeKernel.Proofs.Memory.Restarts
import ComputeKernel.Proofs.Program.Failures
import ComputeKernel.Proofs.Program.Agreement
import ComputeKernel.Proofs.Lexing.Account
import ComputeKernel.Proofs.Shader.Bounds
import ComputeKernel.Proofs.Typing.Shorthand
import ComputeKernel.Proofs.Program.Inference
import ComputeKernel.Proofs.Typing.Qualification
import ComputeKernel.Proofs.Shader.Literals
import ComputeKernel.Proofs.Shader.Ranges
import ComputeKernel.Proofs.Typing.Storage
import ComputeKernel.Proofs.Shader.Harvest
import ComputeKernel.Proofs.Shader.Members
import ComputeKernel.Proofs.Shader.Reordering
import ComputeKernel.Proofs.Program.Globals
import ComputeKernel.Proofs.Lexing.Respacing
import ComputeKernel.Proofs.Parsing.DepthBound
import ComputeKernel.Proofs.Parsing.Termination
import ComputeKernel.Proofs.Program.Reports
import ComputeKernel.Proofs.Shader.Allocation
import ComputeKernel.Proofs.Settings.Sections
import ComputeKernel.Proofs.Typing.Finality
