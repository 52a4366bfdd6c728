import OmxTranscode.TransitionProofs
import OmxTranscode.RingProofs
import OmxTranscode.FifoProofs
import OmxTranscode.PacketQueueProofs
import OmxTranscode.QueueWakeProofs
import OmxTranscode.FramingProofs
import OmxTranscode.PacketProofs
import OmxTranscode.FeedProofs
import OmxTranscode.DemuxProofs
import OmxTranscode.StreamProofs
import OmxTranscode.RouteProofs
import OmxTranscode.StartupProofs
import OmxTranscode.DecodeProofs
import OmxTranscode.InputBufferProofs
import OmxTranscode.EmptySignalProofs
import OmxTranscode.DrainProofs
import OmxTranscode.PortSettingsProofs
import OmxTranscode.ChainProofs
import OmxTranscode.OutBufferProofs
import OmxTranscode.WriterProofs
import OmxTranscode.TurnProofs
import OmxTranscode.SignalProofs
import OmxTranscode.TerminationProofs
import OmxTranscode.TrailerProofs
import OmxTranscode.PipelineProofs
import OmxTranscode.SettleProofs
import OmxTranscode.StartProofs
import OmxTranscode.DeadlockProofs
import OmxTranscode.BalanceProofs
import OmxTranscode.CommandProofs
import OmxTranscode.MemoryProofs
import OmxTranscode.MuxProofs
import OmxTranscode.NalProofs
import OmxTranscode.ReassemblyProofs
import OmxTranscode.ChunkProofs
import OmxTranscode.DetectionProofs
import OmxTranscode.ExtradataProofs
import OmxTranscode.LedgerProofs
import OmxTranscode.CriticalSectionProofs
import OmxTranscode.QueueCodeProofs
import OmxTranscode.SimulationProofs
import OmxTranscode.SharedQueueProofs
import OmxTranscode.SharedQueueRefineProofs
import OmxTranscode.SharedQueueRunProofs
import OmxTranscode.FrameProofs
import OmxTranscode.OutputProofs
import OmxTranscode.CopyProofs
import OmxTranscode.LifetimeProofs
import OmxTranscode.LiveProofs
import OmxTranscode.SetupProofs
import OmxTranscode.SetupFinishProofs
import OmxTranscode.SetupPortsProofs
import OmxTranscode.TimeStampProofs
import OmxTranscode.BudgetProofs
import OmxTranscode.MissedProofs
import OmxTranscode.CompletionProofs
