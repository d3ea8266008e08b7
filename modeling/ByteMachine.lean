import ByteMachine.Emulator.Command
import ByteMachine.Proofs.Footprint.Independence
import ByteMachine.Proofs.History.Memory
import ByteMachine.Proofs.History.Steps
import ByteMachine.Proofs.Memories.UpperRom
import ByteMachine.Proofs.Observers.Trace
import ByteMachine.Proofs.Provenance
import ByteMachine.Proofs.Recovery
import ByteMachine.Proofs.Reference.Refinement
import ByteMachine.Proofs.Schedule
import ByteMachine.Proofs.Stack.Lifo
import ByteMachine.Proofs.StraightLine
import ByteMachine.Proofs.Accounting
import ByteMachine.Proofs.Noninterference
import ByteMachine.Proofs.Observers.Lifecycle
import ByteMachine.Proofs.Emulation
import ByteMachine.Proofs.ClockLoop
import ByteMachine.Proofs.Tiling
import ByteMachine.Proofs.Transactions
import ByteMachine.Proofs.Assembly
import ByteMachine.Proofs.Recurrence
import ByteMachine.Proofs.Restart
import ByteMachine.Proofs.Exact
import ByteMachine.Proofs.NetEffect
import ByteMachine.Proofs.Reload
import ByteMachine.Proofs.Reversal
